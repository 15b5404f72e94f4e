import FerroDruid.Query.ExpressionTokens
/-!
# The grammar of expressions

The documented grammar, with the tree of each phrase. The parser reads its phrases and
nothing else.
-/

namespace FerroDruid.Query.Expression

open Lib List

/-- The rules of the grammar, loosest first. -/
inductive Level where
  | or | and | cmp | add | mul | unary | primary
  deriving DecidableEq

namespace Level

def rank : Level → ℕ
  | or => 0
  | and => 1
  | cmp => 2
  | add => 3
  | mul => 4
  | unary => 5
  | primary => 6

def operators : Level → List Op
  | or => [.or]
  | and => [.and]
  | cmp => [.eq, .ne, .gt, .lt, .ge, .le]
  | add => [.add, .sub]
  | mul => [.mul, .div, .rem]
  | unary => [.sub, .not]
  | primary => []

/-- The rule of the operands. -/
def operand : Level → Level
  | or => and
  | and => cmp
  | cmp => add
  | add => mul
  | mul => unary
  | unary => primary
  | primary => primary

/-- `operand (operator operand)*` -/
def chains : Level → Bool
  | or | and | add | mul => true
  | _ => false

end Level

/-- What a phrase is, and what it means. -/
inductive Phrase where
  | level (l : Level) (e : Expr)
  /-- what follows the left side in a chain -/
  | tail (l : Level) (lhs e : Expr)
  | args (es : List Expr)
  | moreArgs (es : List Expr)

/-- A name alone: a keyword or a column. -/
def named (name : Text) : Expr :=
  match keyword name with
  | some v => .literal v
  | none => .column name

inductive Derives (rt : Runtime) : Phrase → List Token → Prop where
  | chain {l : Level} {lhs e : Expr} {ts us : List Token} (hl : l.chains = true)
    (hlhs : Derives rt (.level l.operand lhs) ts) (htail : Derives rt (.tail l lhs e) us) : Derives rt (.level l e) (ts ++ us)
  | tailNil {l : Level} {e : Expr} : Derives rt (.tail l e e) []
  | tailCons {l : Level} {op : Op} {lhs rhs e : Expr} {ts us : List Token} (hop : op ∈ l.operators)
    (hrhs : Derives rt (.level l.operand rhs) ts) (htail : Derives rt (.tail l (.binary op lhs rhs) e) us) :
    Derives rt (.tail l lhs e) (.op op :: (ts ++ us))
  | cmpOne {e : Expr} {ts : List Token} (h : Derives rt (.level .add e) ts) : Derives rt (.level .cmp e) ts
  | cmpTwo {op : Op} {lhs rhs : Expr} {ts us : List Token} (hop : op ∈ Level.cmp.operators)
    (hlhs : Derives rt (.level .add lhs) ts) (hrhs : Derives rt (.level .add rhs) us) :
    Derives rt (.level .cmp (.binary op lhs rhs)) (ts ++ .op op :: us)
  | unaryOne {e : Expr} {ts : List Token} (h : Derives rt (.level .primary e) ts) : Derives rt (.level .unary e) ts
  | unaryOp {op : Op} {e : Expr} {ts : List Token} (hop : op ∈ Level.unary.operators) (h : Derives rt (.level .unary e) ts) :
    Derives rt (.level .unary (.unary op e)) (.op op :: ts)
  | number (n : F64) : Derives rt (.level .primary (.literal (.num n))) [.num n]
  | string (s : Text) : Derives rt (.level .primary (.literal (.str s))) [.str s]
  | ident (name : Text) : Derives rt (.level .primary (named name)) [.ident name]
  | call {name : Text} {es : List Expr} {ts : List Token} (hname : rt.toLowercase name ∈ functions) (hargs : Derives rt (.args es) ts) :
    Derives rt (.level .primary (.call (rt.toLowercase name) es)) (.ident name :: .lparen :: (ts ++ [.rparen]))
  | paren {e : Expr} {ts : List Token} (h : Derives rt (.level .or e) ts) : Derives rt (.level .primary e) (.lparen :: (ts ++ [.rparen]))
  | argsNil : Derives rt (.args []) []
  | argsCons {e : Expr} {es : List Expr} {ts us : List Token} (h : Derives rt (.level .or e) ts) (hmore : Derives rt (.moreArgs es) us) :
    Derives rt (.args (e :: es)) (ts ++ us)
  | moreNil : Derives rt (.moreArgs []) []
  | moreCons {e : Expr} {es : List Expr} {ts us : List Token} (h : Derives rt (.level .or e) ts) (hmore : Derives rt (.moreArgs es) us) :
    Derives rt (.moreArgs (e :: es)) (.comma :: (ts ++ us))

/-- The whole of a text is a sentence, and this its tree. -/
def Sentence (rt : Runtime) (text : Text) (e : Expr) : Prop := ∃ ts, Lexes rt text ts ∧ Derives rt (.level .or e) ts

variable {rt : Runtime}

/-! ## Known functions -/

variable {op : Op} {lhs : Expr}

theorem validateFunctions_binary {rhs : Expr} :
    validateFunctions (.binary op lhs rhs) = .ok () ↔ validateFunctions lhs = .ok () ∧ validateFunctions rhs = .ok () := by
  rw [validateFunctions, bind_eq_ok]
  exact ⟨fun ⟨_, hl, hr⟩ => ⟨hl, hr⟩, fun ⟨hl, hr⟩ => ⟨(), hl, hr⟩⟩

variable {e : Expr} {es : List Expr}

theorem validateArgs_cons :
    validateArgs (e :: es) = .ok () ↔ validateFunctions e = .ok () ∧ validateArgs es = .ok () := by
  rw [validateArgs, bind_eq_ok]
  exact ⟨fun ⟨_, hl, hr⟩ => ⟨hl, hr⟩, fun ⟨hl, hr⟩ => ⟨(), hl, hr⟩⟩

theorem validateFunctions_call {name : Text} :
    validateFunctions (.call name es) = .ok () ↔ name ∈ functions ∧ validateArgs es = .ok () := by
  rw [validateFunctions]
  by_cases hname : name ∈ functions <;> simp [hname]

theorem validateFunctions_named (name : Text) : validateFunctions (named name) = .ok () := by
  unfold named
  split <;> rfl

/-- A phrase calls known functions only. -/
def Phrase.Known : Phrase → Prop
  | level _ e => validateFunctions e = .ok ()
  | tail _ lhs e => validateFunctions lhs = .ok () → validateFunctions e = .ok ()
  | args es => validateArgs es = .ok ()
  | moreArgs es => validateArgs es = .ok ()

variable {ts : List Token}

theorem known_of_derives {p : Phrase} (h : Derives rt p ts) : p.Known := by
  induction h with
  | chain hl hlhs htail ihlhs ihtail => exact ihtail ihlhs
  | tailNil => exact id
  | tailCons hop hrhs htail ihrhs ihtail => exact fun hlhs => ihtail (validateFunctions_binary.2 ⟨hlhs, ihrhs⟩)
  | cmpOne h ih => exact ih
  | cmpTwo hop hlhs hrhs ihlhs ihrhs => exact validateFunctions_binary.2 ⟨ihlhs, ihrhs⟩
  | unaryOne h ih => exact ih
  | unaryOp hop h ih => exact ih
  | number n => rfl
  | string s => rfl
  | ident name => exact validateFunctions_named name
  | call hname hargs ih => exact validateFunctions_call.2 ⟨hname, ih⟩
  | paren h ih => exact ih
  | argsNil => rfl
  | argsCons h hmore ih ihmore => exact validateArgs_cons.2 ⟨ih, ihmore⟩
  | moreNil => rfl
  | moreCons h hmore ih ihmore => exact validateArgs_cons.2 ⟨ih, ihmore⟩

/-! ## What the parser reads is a phrase -/

/-- The parser reads phrases of one level. -/
def Reads (rt : Runtime) (p : Parser Expr) (l : Level) : Prop := ∀ ts e rest, p ts = .ok (e, rest) → validateFunctions e = .ok () →
  ∃ us, ts = us ++ rest ∧ Derives rt (.level l e) us

variable {ops : List Op} {rest : List Token}

theorem eatOp_eq_some (h : eatOp ops ts = some (op, rest)) : ts = .op op :: rest ∧ op ∈ ops := by
  unfold eatOp at h
  split at h
  · split_ifs at h with hop
    cases h
    exact ⟨rfl, hop⟩
  · cases h

variable {l : Level} {operand parse : Parser Expr} {fuel : ℕ}

theorem binaryLoop_sound (hoperand : Reads rt operand l.operand)
    (h : binaryLoop l.operators operand fuel lhs ts = .ok (e, rest)) (hknown : validateFunctions e = .ok ()) :
    validateFunctions lhs = .ok () ∧ ∃ us, ts = us ++ rest ∧ Derives rt (.tail l lhs e) us := by
  induction fuel generalizing lhs ts with
  | zero =>
    rw [binaryLoop] at h
    cases heat : eatOp l.operators ts with
    | none =>
      simp only [heat] at h
      cases h
      exact ⟨hknown, [], rfl, .tailNil⟩
    | some eaten =>
      simp only [heat] at h
      cases h
  | succ fuel ih =>
    rw [binaryLoop] at h
    cases heat : eatOp l.operators ts with
    | none =>
      simp only [heat] at h
      cases h
      exact ⟨hknown, [], rfl, .tailNil⟩
    | some eaten =>
      obtain ⟨op, ts'⟩ := eaten
      simp only [heat] at h
      obtain ⟨⟨rhs, ts''⟩, hrhs, hloop⟩ := bind_eq_ok.1 h
      obtain ⟨hboth, us, rfl, htail⟩ := ih hloop
      obtain ⟨hlhs, hknown'⟩ := validateFunctions_binary.1 hboth
      obtain ⟨vs, rfl, hphrase⟩ := hoperand _ _ _ hrhs hknown'
      obtain ⟨rfl, hop⟩ := eatOp_eq_some heat
      exact ⟨hlhs, _, by simp, .tailCons hop hphrase htail⟩

theorem parseBinary_sound (hl : l.chains = true) (hoperand : Reads rt operand l.operand) : Reads rt (parseBinary l.operators operand) l := by
  intro ts e rest h hknown
  obtain ⟨⟨lhs, ts'⟩, hlhs, hloop⟩ := bind_eq_ok.1 h
  obtain ⟨hknown', us, rfl, htail⟩ := binaryLoop_sound hoperand hloop hknown
  obtain ⟨vs, rfl, hphrase⟩ := hoperand _ _ _ hlhs hknown'
  exact ⟨vs ++ us, (append_assoc ..).symm, .chain hl hphrase htail⟩

theorem argsLoop_sound (hor : Reads rt parse .or)
    (h : argsLoop parse fuel ts = .ok (es, rest)) (hknown : validateArgs es = .ok ()) : ∃ us, ts = us ++ rest ∧ Derives rt (.moreArgs es) us := by
  fun_induction argsLoop parse fuel ts generalizing es with
  | case1 => cases h
  | case2 ts fuel ih =>
    obtain ⟨⟨e, ts'⟩, hone, h⟩ := bind_eq_ok.1 h
    obtain ⟨⟨es', ts''⟩, hmore, h⟩ := bind_eq_ok.1 h
    cases h
    obtain ⟨he, hes⟩ := validateArgs_cons.1 hknown
    obtain ⟨us, rfl, hphrase⟩ := hor _ _ _ hone he
    obtain ⟨vs, rfl, hargs⟩ := ih _ hmore hes
    exact ⟨_, by simp, .moreCons hphrase hargs⟩
  | case3 =>
    cases h
    exact ⟨[], rfl, .moreNil⟩

theorem parseArgs_sound (hor : Reads rt parse .or) (h : parseArgs parse ts = .ok (es, rest))
    (hknown : validateArgs es = .ok ()) : ∃ us, ts = us ++ rest ∧ Derives rt (.args es) us := by
  unfold parseArgs at h
  split at h
  · cases h
    exact ⟨[], rfl, .argsNil⟩
  · obtain ⟨⟨e, ts'⟩, hone, h⟩ := bind_eq_ok.1 h
    obtain ⟨⟨es', ts''⟩, hmore, h⟩ := bind_eq_ok.1 h
    cases h
    obtain ⟨he, hes⟩ := validateArgs_cons.1 hknown
    obtain ⟨us, rfl, hphrase⟩ := hor _ _ _ hone he
    obtain ⟨vs, rfl, hargs⟩ := argsLoop_sound hor hmore hes
    exact ⟨us ++ vs, (append_assoc ..).symm, .argsCons hphrase hargs⟩

theorem closing_eq_ok {message : String} {u : Unit} (h : closing message ts = .ok (u, rest)) : ts = .rparen :: rest := by
  unfold closing at h
  split at h
  · cases h
    rfl
  · cases h

theorem parsePrimary_sound (hor : Reads rt parse .or) : Reads rt (parsePrimary rt parse) .primary := by
  intro ts e rest h hknown
  unfold parsePrimary at h
  split at h
  · cases h
  · cases h
    exact ⟨_, rfl, .number _⟩
  · cases h
    exact ⟨_, rfl, .string _⟩
  · obtain ⟨⟨e', ts'⟩, hinner, h⟩ := bind_eq_ok.1 h
    obtain ⟨⟨u, ts''⟩, hclose, h⟩ := bind_eq_ok.1 h
    cases h
    obtain ⟨us, rfl, hphrase⟩ := hor _ _ _ hinner hknown
    obtain rfl := closing_eq_ok hclose
    exact ⟨_, by simp, .paren hphrase⟩
  · next name ts =>
    cases hkey : keyword name with
    | some v =>
      simp only [hkey] at h
      cases h
      refine ⟨[.ident name], rfl, ?_⟩
      have hphrase : Derives rt (.level .primary (named name)) [.ident name] := .ident name
      rwa [named, hkey] at hphrase
    | none =>
      simp only [hkey] at h
      split at h
      · obtain ⟨⟨es, ts'⟩, hargs, h⟩ := bind_eq_ok.1 h
        obtain ⟨⟨u, ts''⟩, hclose, h⟩ := bind_eq_ok.1 h
        cases h
        obtain ⟨hname, hknown'⟩ := validateFunctions_call.1 hknown
        obtain ⟨us, rfl, hphrase⟩ := parseArgs_sound hor hargs hknown'
        obtain rfl := closing_eq_ok hclose
        exact ⟨_, by simp, .call hname hphrase⟩
      · cases h
        refine ⟨[.ident name], rfl, ?_⟩
        have hphrase : Derives rt (.level .primary (named name)) [.ident name] := .ident name
        rwa [named, hkey] at hphrase
  · cases h

theorem parseUnary_sound (hor : Reads rt parse .or) : Reads rt (parseUnary rt parse) .unary := by
  intro ts e rest h hknown
  fun_induction parseUnary rt parse ts generalizing e with
  | case1 op ts hop ih =>
    obtain ⟨⟨e', ts'⟩, hinner, h⟩ := bind_eq_ok.1 h
    cases h
    obtain ⟨us, rfl, hphrase⟩ := ih _ hinner hknown
    exact ⟨_, rfl, .unaryOp hop hphrase⟩
  | case2 op ts hop =>
    obtain ⟨us, hts, hphrase⟩ := parsePrimary_sound hor _ _ _ h hknown
    exact ⟨us, hts, .unaryOne hphrase⟩
  | case3 ts hnone =>
    obtain ⟨us, rfl, hphrase⟩ := parsePrimary_sound hor _ _ _ h hknown
    exact ⟨us, rfl, .unaryOne hphrase⟩

theorem parseCmp_sound (hadd : Reads rt (parseAdd rt parse) .add) : Reads rt (parseCmp rt parse) .cmp := by
  intro ts e rest h hknown
  obtain ⟨⟨lhs, ts'⟩, hlhs, h⟩ := bind_eq_ok.1 h
  cases heat : eatOp [.eq, .ne, .gt, .lt, .ge, .le] ts' with
  | none =>
    simp only [heat] at h
    cases h
    obtain ⟨us, rfl, hphrase⟩ := hadd _ _ _ hlhs hknown
    exact ⟨us, rfl, .cmpOne hphrase⟩
  | some eaten =>
    obtain ⟨op, ts''⟩ := eaten
    simp only [heat] at h
    obtain ⟨⟨rhs, ts'''⟩, hrhs, h⟩ := bind_eq_ok.1 h
    cases h
    obtain ⟨hknownl, hknownr⟩ := validateFunctions_binary.1 hknown
    obtain ⟨us, rfl, hphrasel⟩ := hadd _ _ _ hlhs hknownl
    obtain ⟨vs, rfl, hphraser⟩ := hadd _ _ _ hrhs hknownr
    obtain ⟨heq, hop⟩ := eatOp_eq_some heat
    subst heq
    exact ⟨_, by simp, .cmpTwo hop hphrasel hphraser⟩

theorem parseOr_sound (rt : Runtime) (n : ℕ) : Reads rt (parseOr rt n) .or := by
  induction n with
  | zero =>
    intro ts e rest h
    cases h
  | succ n ih =>
    have hunary := parseUnary_sound ih
    have hmul : Reads rt (parseMul rt (parseOr rt n)) .mul := @parseBinary_sound rt .mul _ rfl hunary
    have hadd : Reads rt (parseAdd rt (parseOr rt n)) .add := @parseBinary_sound rt .add _ rfl hmul
    have hcmp := parseCmp_sound hadd
    have hand : Reads rt (parseAnd rt (parseOr rt n)) .and := @parseBinary_sound rt .and _ rfl hcmp
    exact @parseBinary_sound rt .or _ rfl hand

/-! ## Every phrase is read -/

/-- The parser of a level, within `n` parentheses. -/
def parseLevel (rt : Runtime) (n : ℕ) : Level → Parser Expr
  | .or => parseOr rt (n + 1)
  | .and => parseAnd rt (parseOr rt n)
  | .cmp => parseCmp rt (parseOr rt n)
  | .add => parseAdd rt (parseOr rt n)
  | .mul => parseMul rt (parseOr rt n)
  | .unary => parseUnary rt (parseOr rt n)
  | .primary => parsePrimary rt (parseOr rt n)

theorem parseLevel_chain (hl : l.chains = true) (n : ℕ) : parseLevel rt n l = parseBinary l.operators (parseLevel rt n l.operand) := by
  cases l <;> first | rfl | cases hl

/-- The level of an operator between two operands. -/
def Op.level : Op → Level
  | .or => .or
  | .and => .and
  | .eq | .ne | .gt | .lt | .ge | .le => .cmp
  | .add | .sub => .add
  | .mul | .div | .rem => .mul
  | .not => .unary

theorem level_of_mem (hop : op ∈ l.operators) (hl : l ≠ .unary) : op.level = l := by
  cases l <;> cases op <;> simp [Level.operators] at hop hl ⊢ <;> rfl

theorem rank_operand (hl : l.chains = true) : l.rank < l.operand.rank := by
  cases l <;> first | decide | cases hl

/-- What follows continues no phrase of the level. -/
def Stops (l : Level) (rest : List Token) : Prop :=
  rest.head? ≠ some .lparen ∧ ∀ op, rest.head? = some (.op op) → op.level.rank < l.rank

theorem Stops.mono {l l' : Level} (h : Stops l rest) (hle : l.rank ≤ l'.rank) : Stops l' rest :=
  ⟨h.1, fun op hop => (h.2 op hop).trans_le hle⟩

theorem Stops.eatOp (h : Stops l rest) (hl : l ≠ .unary) : eatOp l.operators rest = none := by
  unfold Expression.eatOp
  split
  · next op rest =>
    refine if_neg fun hop => ?_
    have hlt := h.2 op rfl
    rw [level_of_mem hop hl] at hlt
    exact absurd hlt (lt_irrefl _)
  · rfl

theorem stops_op (hop : op ∈ l.operators) (hl : l ≠ .unary) {l' : Level} (hlt : l.rank < l'.rank) (rest : List Token) :
    Stops l' (.op op :: rest) := by
  refine ⟨nofun, fun op' heq => ?_⟩
  cases heq
  rwa [level_of_mem hop hl]

theorem stops_rparen (rest : List Token) : Stops l (.rparen :: rest) := ⟨nofun, nofun⟩

theorem stops_comma (rest : List Token) : Stops l (.comma :: rest) := ⟨nofun, nofun⟩

theorem stops_nil : Stops l [] := ⟨nofun, nofun⟩

theorem ne_unary_of_chains (hl : l.chains = true) : l ≠ .unary := by
  rintro rfl
  cases hl

/-- A known function is no keyword. -/
theorem keyword_of_known {name : Text} (h : rt.toLowercase name ∈ functions) : keyword name = none := by
  have hne : ∀ key : Text, (∀ c ∈ key, IsAscii c) → key.map Char.toLower ∉ functions → name ≠ key := by
    rintro key hascii hkey rfl
    rw [rt.lowercase_ascii _ hascii] at h
    exact hkey h
  rw [keyword, if_neg (hne _ (by decide) (by decide)), if_neg (hne _ (by decide) (by decide)), if_neg (hne _ (by decide) (by decide))]

/-- A phrase is read up to where it stops. -/
def Phrase.Parses (rt : Runtime) (ts : List Token) : Phrase → Prop
  | level l e => ∀ n rest, ts.length ≤ n → Stops l rest → parseLevel rt n l (ts ++ rest) = .ok (e, rest)
  | tail l lhs e => l.chains = true → ∀ n m rest, ts.length ≤ n → ts.length ≤ m → Stops l rest →
    binaryLoop l.operators (parseLevel rt n l.operand) m lhs (ts ++ rest) = .ok (e, rest)
  | args es => ∀ n rest, ts.length ≤ n → parseArgs (parseOr rt (n + 1)) (ts ++ .rparen :: rest) = .ok (es, .rparen :: rest)
  | moreArgs es => ∀ n m rest, ts.length ≤ n → ts.length ≤ m →
    argsLoop (parseOr rt (n + 1)) m (ts ++ .rparen :: rest) = .ok (es, .rparen :: rest)

theorem binaryLoop_stop (h : eatOp ops ts = none) (fuel : ℕ) (lhs : Expr) :
    binaryLoop ops operand fuel lhs ts = .ok (lhs, ts) := by
  cases fuel <;> rw [binaryLoop] <;> simp only [h]

theorem binaryLoop_step (hop : op ∈ ops) {rhs : Expr} (h : operand ts = .ok (rhs, rest)) :
    binaryLoop ops operand (fuel + 1) lhs (.op op :: ts) = binaryLoop ops operand fuel (.binary op lhs rhs) rest := by
  have heat : eatOp ops (.op op :: ts) = some (op, ts) := if_pos hop
  rw [binaryLoop]
  simp only [heat, h, ok_bind]

theorem parseBinary_ok (h : operand ts = .ok (lhs, rest)) :
    parseBinary ops operand ts = binaryLoop ops operand rest.length lhs rest := by
  rw [parseBinary, h, ok_bind]

/-- What follows an operand is its chain's operator, or stops the chain. -/
theorem stops_tail {us : List Token} (hl : l.chains = true) (h : Derives rt (.tail l lhs e) us) (hrest : Stops l rest) :
    Stops l.operand (us ++ rest) := by
  have hlt := rank_operand hl
  cases h with
  | tailNil => exact hrest.mono hlt.le
  | tailCons hop hrhs htail => exact stops_op hop (ne_unary_of_chains hl) hlt _

theorem stops_moreArgs {us : List Token} (h : Derives rt (.moreArgs es) us) (rest : List Token) : Stops l (us ++ .rparen :: rest) := by
  cases h with
  | moreNil => exact stops_rparen rest
  | moreCons h hmore => exact stops_comma _

theorem primary_head (h : Derives rt (.level .primary e) ts) : ∃ t us, ts = t :: us ∧ ∀ op, t ≠ .op op := by
  cases h with
  | chain hl => cases hl
  | number n => exact ⟨_, _, rfl, nofun⟩
  | string s => exact ⟨_, _, rfl, nofun⟩
  | ident name => exact ⟨_, _, rfl, nofun⟩
  | call hname hargs => exact ⟨_, _, rfl, nofun⟩
  | paren h => exact ⟨_, _, rfl, nofun⟩

theorem parseUnary_of_ne {t : Token} (h : ∀ op, t ≠ .op op) (ts : List Token) : parseUnary rt parse (t :: ts) = parsePrimary rt parse (t :: ts) := by
  cases t with
  | op op => exact absurd rfl (h op)
  | _ => rfl

/-- A closing parenthesis begins no expression. -/
theorem parseArgs_of_ok {n : ℕ} {rest' : List Token} (h : parseOr rt (n + 1) ts = .ok (e, rest))
    (hmore : argsLoop (parseOr rt (n + 1)) rest.length rest = .ok (es, rest')) : parseArgs (parseOr rt (n + 1)) ts = .ok (e :: es, rest') := by
  rw [parseArgs, h, ok_bind]
  · simp only [hmore, ok_bind]
  · rintro ts' rfl
    cases h

theorem parses_of_derives {p : Phrase} (h : Derives rt p ts) : p.Parses rt ts := by
  induction h with
  | @chain l lhs e ts us hl hlhs htail ihlhs ihtail =>
    intro n rest hn hrest
    rw [length_append] at hn
    rw [parseLevel_chain hl, append_assoc, parseBinary_ok (ihlhs n (us ++ rest) (by omega) (stops_tail hl htail hrest))]
    exact ihtail hl n _ rest (by omega) (by simp) hrest
  | @tailNil l e =>
    intro hl n m rest hn hm hrest
    exact binaryLoop_stop (hrest.eatOp (ne_unary_of_chains hl)) m e
  | @tailCons l op lhs rhs e ts us hop hrhs htail ihrhs ihtail =>
    intro hl n m rest hn hm hrest
    rw [length_cons, length_append] at hn hm
    obtain ⟨m, rfl⟩ : ∃ k, m = k + 1 := ⟨m - 1, by omega⟩
    rw [cons_append, append_assoc, binaryLoop_step hop (ihrhs n (us ++ rest) (by omega) (stops_tail hl htail hrest))]
    exact ihtail hl n m rest (by omega) (by omega) hrest
  | @cmpOne e ts h ih =>
    intro n rest hn hrest
    have hadd : parseAdd rt (parseOr rt n) (ts ++ rest) = .ok (e, rest) := ih n rest hn (hrest.mono (by decide))
    have heat := hrest.eatOp (by decide)
    rw [Level.operators] at heat
    rw [parseLevel, parseCmp, hadd, ok_bind]
    simp only [heat]
  | @cmpTwo op lhs rhs ts us hop hlhs hrhs ihlhs ihrhs =>
    intro n rest hn hrest
    rw [length_append, length_cons] at hn
    have hfirst : parseAdd rt (parseOr rt n) (ts ++ .op op :: (us ++ rest)) = .ok (lhs, .op op :: (us ++ rest)) :=
      ihlhs n _ (by omega) (stops_op hop (by decide) (by decide) _)
    have hsecond : parseAdd rt (parseOr rt n) (us ++ rest) = .ok (rhs, rest) := ihrhs n rest (by omega) (hrest.mono (by decide))
    have heat : eatOp [.eq, .ne, .gt, .lt, .ge, .le] (.op op :: (us ++ rest)) = some (op, us ++ rest) := if_pos hop
    rw [parseLevel, parseCmp, append_assoc, cons_append, hfirst, ok_bind]
    simp only [heat, hsecond, ok_bind]
  | @unaryOne e ts h ih =>
    intro n rest hn hrest
    obtain ⟨t, us, rfl, hne⟩ := primary_head h
    rw [parseLevel, cons_append, parseUnary_of_ne hne]
    exact ih n rest hn (hrest.mono (by decide))
  | @unaryOp op e ts hop h ih =>
    intro n rest hn hrest
    rw [length_cons] at hn
    have hinner : parseUnary rt (parseOr rt n) (ts ++ rest) = .ok (e, rest) := ih n rest (by omega) hrest
    have hunary : op ∈ [Op.sub, .not] := hop
    rw [parseLevel, cons_append, parseUnary, if_pos hunary, hinner]
    rfl
  | number n => exact fun _ _ _ _ => rfl
  | string s => exact fun _ _ _ _ => rfl
  | ident name =>
    intro n rest hn hrest
    rw [parseLevel, singleton_append, named]
    cases hkey : keyword name with
    | some v => simp only [parsePrimary, hkey]
    | none =>
      cases rest with
      | nil => simp only [parsePrimary, hkey]
      | cons t rest =>
        cases t with
        | lparen => exact absurd rfl hrest.1
        | _ => simp only [parsePrimary, hkey]
  | @call name es ts hname hargs ih =>
    intro n rest hn hrest
    simp only [length_cons, length_append, length_nil] at hn
    obtain ⟨n, rfl⟩ : ∃ k, n = k + 1 := ⟨n - 1, by omega⟩
    have hread := ih n rest (by omega)
    rw [parseLevel, cons_append, cons_append, append_assoc, singleton_append, parsePrimary]
    simp only [keyword_of_known hname, hread, ok_bind]
    rfl
  | @paren e ts h ih =>
    intro n rest hn hrest
    simp only [length_cons, length_append, length_nil] at hn
    obtain ⟨n, rfl⟩ : ∃ k, n = k + 1 := ⟨n - 1, by omega⟩
    have hread : parseOr rt (n + 1) (ts ++ .rparen :: rest) = .ok (e, .rparen :: rest) := ih n _ (by omega) (stops_rparen rest)
    rw [parseLevel, cons_append, append_assoc, singleton_append, parsePrimary, hread]
    rfl
  | argsNil => exact fun _ _ _ => rfl
  | @argsCons e es ts us h hmore ih ihmore =>
    intro n rest hn
    rw [length_append] at hn
    have hfirst : parseOr rt (n + 1) (ts ++ (us ++ .rparen :: rest)) = .ok (e, us ++ .rparen :: rest) :=
      ih n _ (by omega) (stops_moreArgs hmore rest)
    rw [append_assoc, parseArgs_of_ok hfirst (ihmore n _ rest (by omega) (by simp))]
  | moreNil =>
    intro n m rest hn hm
    cases m <;> rfl
  | @moreCons e es ts us h hmore ih ihmore =>
    intro n m rest hn hm
    rw [length_cons, length_append] at hn hm
    obtain ⟨m, rfl⟩ : ∃ k, m = k + 1 := ⟨m - 1, by omega⟩
    have hfirst : parseOr rt (n + 1) (ts ++ (us ++ .rparen :: rest)) = .ok (e, us ++ .rparen :: rest) :=
      ih n _ (by omega) (stops_moreArgs hmore rest)
    rw [cons_append, append_assoc, argsLoop, hfirst, ok_bind]
    simp only [ihmore n m rest (by omega) (by omega), ok_bind]

/-- A text compiles exactly if it is a sentence, and to the sentence's tree. -/
theorem compile_eq_ok {text : Text} : compile rt text = .ok e ↔ Sentence rt text e := by
  rw [compile, bind_eq_ok]
  constructor
  · rintro ⟨ts, htokens, h⟩
    split_ifs at h with hnil
    obtain ⟨⟨e', rest⟩, hparse, h⟩ := bind_eq_ok.1 h
    dsimp only at h
    split_ifs at h with hrest
    obtain ⟨⟨⟩, hknown, h⟩ := bind_eq_ok.1 h
    cases h
    obtain ⟨us, rfl, hphrase⟩ := parseOr_sound rt _ _ _ _ hparse hknown
    rw [not_not.1 hrest, append_nil] at htokens
    exact ⟨us, tokenize_eq_ok.1 htokens, hphrase⟩
  · rintro ⟨ts, hlexes, hphrase⟩
    have hparse : parseOr rt (ts.length + 1) (ts ++ []) = .ok (e, []) := parses_of_derives hphrase _ [] le_rfl stops_nil
    have hknown : validateFunctions e = .ok () := known_of_derives hphrase
    rw [append_nil] at hparse
    have hne : ts ≠ [] := by
      rintro rfl
      cases hparse
    refine ⟨ts, tokenize_eq_ok.2 hlexes, ?_⟩
    rw [if_neg hne, hparse, ok_bind]
    simp only [ne_eq, not_true_eq_false, if_false, hknown, ok_bind]

end FerroDruid.Query.Expression
