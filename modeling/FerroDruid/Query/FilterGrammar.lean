import FerroDruid.Query.FilterTokens
/-!
# The grammar of expression filters

Comparisons, negations, conjunctions and disjunctions, each with the tree it stands for. The
parser reads what the grammar has once the parentheses that are open at the end are closed.
-/

namespace FerroDruid.Query.FilterExpression

open Lib List
open Expression (Text Op Value Row)

/-! ## Trees and their meaning -/

inductive Operand where
  | number (n : F64)
  | text (s : Text)
  | name (name : Text)

inductive Tree where
  | value (o : Operand)
  | comparison (op : Op) (lhs rhs : Operand)
  | not (t : Tree)
  | and (lhs rhs : Tree)
  | or (lhs rhs : Tree)

namespace Operand

def token : Operand → ExprToken
  | number n => .number n
  | text s => .stringLit s
  | name s => .ident s

def eval (rt : Runtime) (row : Row) : Operand → Value
  | number n => .num n
  | text s => .str s
  | name s => resolveIdent rt row s

end Operand

def Tree.eval (rt : Runtime) (row : Row) : Tree → Bool
  | value o => (o.eval rt row).isTruthy
  | comparison op lhs rhs => compareValues rt (lhs.eval rt row) op (rhs.eval rt row)
  | not t => !t.eval rt row
  | and lhs rhs => lhs.eval rt row && rhs.eval rt row
  | or lhs rhs => lhs.eval rt row || rhs.eval rt row

/-! ## The grammar -/

/-- The two rules that chain operands, looser first. -/
inductive Chain where
  | or | and

/-- The rules of the grammar. -/
inductive Level where
  | chain (c : Chain)
  | not
  | primary

namespace Chain

def op : Chain → Op
  | or => .or
  | and => .and

def tree : Chain → Tree → Tree → Tree
  | or => .or
  | and => .and

def combine : Chain → Bool → Bool → Bool
  | or => Bool.or
  | and => Bool.and

/-- The rule of the operands. -/
def operand : Chain → Level
  | or => .chain .and
  | and => .not

theorem eval_tree (c : Chain) (rt : Runtime) (row : Row) (lhs rhs : Tree) :
    (c.tree lhs rhs).eval rt row = c.combine (lhs.eval rt row) (rhs.eval rt row) := by
  cases c <;> rfl

end Chain

/-- What a phrase is, and what it means. -/
inductive Phrase where
  | level (l : Level) (t : Tree)
  /-- what follows the left side in a chain -/
  | tail (c : Chain) (lhs t : Tree)

inductive Derives : Phrase → List ExprToken → Prop where
  | chain {c : Chain} {lhs t : Tree} {ts us : List ExprToken} (hlhs : Derives (.level c.operand lhs) ts) (htail : Derives (.tail c lhs t) us) :
    Derives (.level (.chain c) t) (ts ++ us)
  | tailNil {c : Chain} {t : Tree} : Derives (.tail c t t) []
  | tailCons {c : Chain} {lhs rhs t : Tree} {ts us : List ExprToken} (hrhs : Derives (.level c.operand rhs) ts)
    (htail : Derives (.tail c (c.tree lhs rhs) t) us) : Derives (.tail c lhs t) (.op c.op :: (ts ++ us))
  | notOne {t : Tree} {ts : List ExprToken} (h : Derives (.level .primary t) ts) : Derives (.level .not t) ts
  | notOp {t : Tree} {ts : List ExprToken} (h : Derives (.level .primary t) ts) : Derives (.level .not (.not t)) (.op .not :: ts)
  | value (o : Operand) : Derives (.level .primary (.value o)) [o.token]
  | comparison {op : Op} (hop : op ∈ comparisons) (lhs rhs : Operand) :
    Derives (.level .primary (.comparison op lhs rhs)) [lhs.token, .op op, rhs.token]
  | paren {t : Tree} {ts : List ExprToken} (h : Derives (.level (.chain .or) t) ts) :
    Derives (.level .primary t) (.lParen :: (ts ++ [ExprToken.rParen]))

variable {rt : Runtime} {row : Row}

/-! ## Parentheses -/

variable {ts : List ExprToken}

/-- In a phrase as many parentheses are closed as are opened. -/
theorem Derives.balanced {p : Phrase} (h : Derives p ts) : ts.count .lParen = ts.count .rParen := by
  induction h with
  | chain hlhs htail ihlhs ihtail => rw [count_append, count_append, ihlhs, ihtail]
  | tailNil => rfl
  | tailCons hrhs htail ihrhs ihtail => simp [count_append, ihrhs, ihtail]
  | notOne h ih => exact ih
  | notOp h ih => simp [ih]
  | value o => cases o <;> simp [Operand.token]
  | comparison hop lhs rhs => cases lhs <;> cases rhs <;> simp [Operand.token]
  | paren h ih => simp [count_append, ih]

/-- No phrase remains one with more parentheses closed behind it. -/
theorem Derives.closed {p q : Phrase} {k : ℕ} (h : Derives p ts) (h' : Derives q (ts ++ List.replicate k ExprToken.rParen)) : k = 0 := by
  have hbalanced := h'.balanced
  rw [count_append, count_append, h.balanced, count_replicate, count_replicate] at hbalanced
  simpa using hbalanced

/-! ## What the parser reads -/

/-- The operators that continue a phrase of a level. -/
def Level.continued : Level → List Op
  | .chain .or => [.or, .and]
  | .chain .and => [.and]
  | _ => []

/-- None of the operators is next. -/
def Apart (ops : List Op) (ts : List ExprToken) : Prop := ∀ op ∈ ops, ts.head? ≠ some (.op op)

/-- Nothing that a phrase in open parentheses could be continued with is next. -/
def Ends (ts : List ExprToken) : Prop := ts.head? ≠ some .rParen ∧ Apart (Level.chain .or).continued ts

/-- What is read is a phrase, once `k` parentheses are closed behind it; then nothing continues it. -/
structure Read (rt : Runtime) (row : Row) (p : Tree → Phrase) (l : Level) (ts : List ExprToken) (b : Bool) (rest : List ExprToken) : Prop where
  phrase : ∃ us t k, ts = us ++ rest ∧ Derives (p t) (us ++ List.replicate k ExprToken.rParen) ∧ t.eval rt row = b ∧ (k ≠ 0 → Ends rest)
  apart : Apart l.continued rest

/-- The parser reads phrases of one level. -/
def Reads (rt : Runtime) (row : Row) (p : Parser) (l : Level) : Prop :=
  ∀ ts b rest, p ts = some (b, rest) → Read rt row (.level l) l ts b rest

theorem Apart.mono {ops ops' : List Op} (h : Apart ops ts) (hsub : ops' ⊆ ops) : Apart ops' ts := fun op hop => h op (hsub hop)

variable {operand : Parser}

theorem chainLoop_of_ne {op : Op} {combine : Bool → Bool → Bool} (h : ts.head? ≠ some (.op op)) (n : ℕ) (b : Bool) :
    chainLoop op combine operand n b ts = some (b, ts) := by
  cases n <;> rw [chainLoop, if_neg h]

theorem chainLoop_of_eq {op : Op} {combine : Bool → Bool → Bool} {n : ℕ} {b : Bool} :
    chainLoop op combine operand (n + 1) b (.op op :: ts) =
      (operand ts).bind fun (rhs, ts) => chainLoop op combine operand n (combine b rhs) ts := by
  rw [chainLoop]
  simp

theorem op_mem_continued (c : Chain) : c.op ∈ (Level.chain .or).continued := by
  cases c <;> decide

variable {c : Chain}

/-- A chain's operand may be continued by no tighter chain. -/
theorem apart_chain (h : Apart c.operand.continued ts) (hne : ts.head? ≠ some (.op c.op)) :
    Apart (Level.chain c).continued ts := by
  intro op hop
  cases c with
  | or =>
    simp only [Level.continued, mem_cons, not_mem_nil, or_false] at hop
    rcases hop with rfl | rfl
    · exact hne
    · exact h .and (by decide)
  | and =>
    simp only [Level.continued, mem_cons, not_mem_nil, or_false] at hop
    subst hop
    exact hne

theorem chainLoop_sound (hoperand : Reads rt row operand c.operand) {n : ℕ} {b b' : Bool} {lhs : Tree}
    (hlhs : lhs.eval rt row = b) {rest : List ExprToken} (hts : Apart c.operand.continued ts)
    (h : chainLoop c.op c.combine operand n b ts = some (b', rest)) : Read rt row (.tail c lhs) (.chain c) ts b' rest := by
  induction n generalizing b lhs ts with
  | zero =>
    rw [chainLoop] at h
    split_ifs at h with hop
    cases h
    exact ⟨⟨[], lhs, 0, rfl, .tailNil, hlhs, nofun⟩, apart_chain hts hop⟩
  | succ n ih =>
    rw [chainLoop] at h
    split_ifs at h with hop
    · obtain ⟨⟨rhs, ts'⟩, hrhs, h⟩ := Option.bind_eq_some_iff.1 h
      obtain ⟨us, hus⟩ : ∃ us, ts = .op c.op :: us := ⟨ts.tail, (cons_head?_tail hop).symm⟩
      subst hus
      obtain ⟨⟨vs, t, k, rfl, hphrase, rfl, hends⟩, hapart⟩ := hoperand _ _ _ hrhs
      have hcombined : (c.tree lhs t).eval rt row = c.combine b (t.eval rt row) := by rw [c.eval_tree, hlhs]
      obtain ⟨⟨ws, t', k', rfl, htail, rfl, hends'⟩, hapart'⟩ := ih hcombined hapart h
      refine ⟨?_, hapart'⟩
      by_cases hk : k = 0
      · subst hk
        exact ⟨.op c.op :: (vs ++ ws), t', k', by simp, by simpa using hphrase.tailCons htail, rfl, hends'⟩
      · -- an open parenthesis has ended the chain
        have hne := (hends hk).2 c.op (op_mem_continued c)
        dsimp only at h
        rw [chainLoop_of_ne hne] at h
        obtain ⟨heval, hrest⟩ := Prod.mk.inj (Option.some.inj h)
        obtain rfl : ws = [] := by simpa using hrest
        refine ⟨.op c.op :: vs, c.tree lhs t, k, by simp, ?_, hcombined.trans heval, hends⟩
        simpa using hphrase.tailCons .tailNil
    · cases h
      exact ⟨⟨[], lhs, 0, rfl, .tailNil, hlhs, nofun⟩, apart_chain hts hop⟩

theorem parseChain_sound (hoperand : Reads rt row operand c.operand) (n : ℕ) :
    Reads rt row (parseChain c.op c.combine operand n) (.chain c) := by
  intro ts b rest h
  obtain ⟨⟨b', ts'⟩, hlhs, h⟩ := Option.bind_eq_some_iff.1 h
  obtain ⟨⟨us, t, k, rfl, hphrase, rfl, hends⟩, hapart⟩ := hoperand _ _ _ hlhs
  obtain ⟨⟨vs, t', k', rfl, htail, rfl, hends'⟩, hapart'⟩ := chainLoop_sound hoperand rfl hapart h
  refine ⟨?_, hapart'⟩
  by_cases hk : k = 0
  · subst hk
    exact ⟨us ++ vs, t', k', by simp, by simpa using hphrase.chain htail, rfl, hends'⟩
  · have hne := (hends hk).2 c.op (op_mem_continued c)
    dsimp only at h
    rw [chainLoop_of_ne hne] at h
    obtain ⟨heval, hrest⟩ := Prod.mk.inj (Option.some.inj h)
    obtain rfl : vs = [] := by simpa using hrest
    exact ⟨us, t, k, by simp, by simpa using hphrase.chain .tailNil, heval, hends⟩

theorem resolveValue_sound {rest : List ExprToken} {v : Value} (h : resolveValue rt row ts = some (v, rest)) :
    ∃ o : Operand, ts = o.token :: rest ∧ o.eval rt row = v := by
  unfold resolveValue at h
  split at h
  · next n rest' =>
    cases h
    exact ⟨.number n, rfl, rfl⟩
  · next s rest' =>
    cases h
    exact ⟨.text s, rfl, rfl⟩
  · next s rest' =>
    cases h
    exact ⟨.name s, rfl, rfl⟩
  · cases h

theorem apart_nil (ts : List ExprToken) : Apart [] ts := nofun

theorem parsePrimary_sound {parse : Parser} (hor : Reads rt row parse (.chain .or)) : Reads rt row (parsePrimary rt row parse) .primary := by
  intro ts b rest h
  refine ⟨?_, apart_nil rest⟩
  unfold parsePrimary at h
  split at h
  · cases h
  · next ts =>
    obtain ⟨⟨b', ts'⟩, hinner, h⟩ := Option.bind_eq_some_iff.1 h
    obtain ⟨⟨us, t, k, rfl, hphrase, rfl, hends⟩, hapart⟩ := hor _ _ _ hinner
    dsimp only at h
    split_ifs at h with hclosed
    · obtain ⟨rest', rfl⟩ : ∃ rest', ts' = .rParen :: rest' := ⟨ts'.tail, (cons_head?_tail hclosed).symm⟩
      cases h
      obtain rfl : k = 0 := by
        by_contra hk
        exact (hends hk).1 rfl
      exact ⟨.lParen :: (us ++ [ExprToken.rParen]), t, 0, by simp, by simpa using hphrase.paren, rfl, nofun⟩
    · cases h
      refine ⟨.lParen :: us, t, k + 1, rfl, ?_, rfl, fun _ => ⟨hclosed, hapart⟩⟩
      rw [replicate_succ', cons_append, ← append_assoc]
      exact hphrase.paren
  · obtain ⟨⟨lhs, ts'⟩, hlhs, h⟩ := Option.bind_eq_some_iff.1 h
    obtain ⟨o, rfl, rfl⟩ := resolveValue_sound hlhs
    dsimp only at h
    obtain ⟨op, us, rfl⟩ | hne : (∃ op us, ts' = .op op :: us) ∨ ∀ op us, ts' ≠ .op op :: us := by
      by_cases hop : ∃ op us, ts' = .op op :: us
      · exact .inl hop
      · exact .inr fun op us heq => hop ⟨op, us, heq⟩
    · dsimp only at h
      split_ifs at h with hop
      · obtain ⟨⟨rhs, ts''⟩, hrhs, h⟩ := Option.bind_eq_some_iff.1 h
        obtain ⟨o', rfl, rfl⟩ := resolveValue_sound hrhs
        cases h
        exact ⟨[o.token, .op op, o'.token], _, 0, rfl, .comparison hop o o', rfl, nofun⟩
      · cases h
        exact ⟨[o.token], _, 0, rfl, .value o, rfl, nofun⟩
    · split at h
      · exact absurd rfl (hne _ _)
      · cases h
        exact ⟨[o.token], _, 0, rfl, .value o, rfl, nofun⟩

theorem parseNot_sound {parse : Parser} (hor : Reads rt row parse (.chain .or)) : Reads rt row (parseNot rt row parse) .not := by
  intro ts b rest h
  refine ⟨?_, apart_nil rest⟩
  unfold parseNot at h
  split_ifs at h with hnot
  · obtain ⟨ts, rfl⟩ : ∃ us, ts = .op .not :: us := ⟨ts.tail, (cons_head?_tail hnot).symm⟩
    obtain ⟨⟨b', ts'⟩, hinner, h⟩ := Option.bind_eq_some_iff.1 h
    cases h
    obtain ⟨⟨us, t, k, hts, hphrase, rfl, hends⟩, -⟩ := parsePrimary_sound hor _ _ _ hinner
    subst hts
    exact ⟨.op .not :: us, .not t, k, rfl, hphrase.notOp, rfl, hends⟩
  · obtain ⟨⟨us, t, k, hts, hphrase, heval, hends⟩, -⟩ := parsePrimary_sound hor _ _ _ h
    exact ⟨us, t, k, hts, hphrase.notOne, heval, hends⟩

theorem parseOr_sound (rt : Runtime) (row : Row) (n : ℕ) : Reads rt row (parseOr rt row n) (.chain .or) := by
  induction n with
  | zero =>
    intro ts b rest h
    cases h
  | succ n ih =>
    have hand : Reads rt row (parseAnd rt row (parseOr rt row n) n) (.chain .and) := parseChain_sound (c := .and) (parseNot_sound ih) n
    exact parseChain_sound (c := .or) hand n

end FerroDruid.Query.FilterExpression
