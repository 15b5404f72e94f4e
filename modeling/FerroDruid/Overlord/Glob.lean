import FerroDruid.Lib.Wildcard
import Mathlib.Logic.Relation
import Mathlib.Tactic.Ring
/-!
# File name patterns

`glob_matches` of `ferrodruid-overlord/src/lib.rs`: the matcher for the `filter` of a
`local` input source, a loop that goes back to the last `*` it met.

It compares characters before it looks for a `*`, so a `*` of the pattern in
front of a `*` of the name stands for that one character. No other run goes wrong.
-/

namespace FerroDruid.Overlord

open Lib List

/-! ## The language -/

def globItem (c : Char) : WildItem Char := if c = '*' then .many else if c = '?' then .one else .char c

/-- What the documentation says of a pattern, of the whole name. -/
def GlobLanguage (pattern name : String) : Prop := WildMatch (pattern.toList.map globItem) name.toList

/-! ## The matcher -/

/-- Positions in the pattern and the text, and those of the last `*`. -/
structure GlobState where
  p : ℕ
  t : ℕ
  star : Option (ℕ × ℕ)

def GlobState.init : GlobState := ⟨0, 0, none⟩

/-- One turn of the loop, or what follows it. -/
def globStep (pat txt : List Char) (s : GlobState) : Bool ⊕ GlobState :=
  if s.t < txt.length then
    if s.p < pat.length ∧ (pat[s.p]? = some '?' ∨ pat[s.p]? = txt[s.t]?) then .inr ⟨s.p + 1, s.t + 1, s.star⟩
    else if s.p < pat.length ∧ pat[s.p]? = some '*' then .inr ⟨s.p + 1, s.t, some (s.p, s.t)⟩
    else
      match s.star with
      | some (sp, st) => .inr ⟨sp + 1, st + 1, some (sp, st + 1)⟩
      | none => .inl false
  else .inl ((pat.drop s.p).all (· = '*'))

def globLoop (pat txt : List Char) : ℕ → GlobState → Option Bool
  | 0, _ => none
  | turns + 1, s =>
    match globStep pat txt s with
    | .inl verdict => some verdict
    | .inr s => globLoop pat txt turns s

/-- More turns than any run takes. -/
def globTurns (pat txt : List Char) : ℕ := (pat.length + 2) * (txt.length + 1) * (txt.length + 1)

def globMatches (pattern name : String) : Bool :=
  (globLoop pattern.toList name.toList (globTurns pattern.toList name.toList) .init).getD false

/-! ## Termination -/

variable {pat txt : List Char} {s s' : GlobState}

/-- The positions are within the texts, and a `*` is behind them. -/
structure Ordered (pat txt : List Char) (s : GlobState) : Prop where
  p : s.p ≤ pat.length
  t : s.t ≤ txt.length
  star : ∀ sp st, s.star = some (sp, st) → sp < s.p ∧ pat[sp]? = some '*' ∧ st ≤ s.t

theorem ordered_init (pat txt : List Char) : Ordered pat txt .init := ⟨Nat.zero_le _, Nat.zero_le _, nofun⟩

/-- What a turn does, in three cases. -/
inductive GlobTurn (pat txt : List Char) (s : GlobState) : GlobState → Prop
  | take (c : Char) (hc : txt[s.t]? = some c) (hp : pat[s.p]? = some '?' ∨ pat[s.p]? = some c) :
      GlobTurn pat txt s ⟨s.p + 1, s.t + 1, s.star⟩
  | star (c : Char) (hc : txt[s.t]? = some c) (hp : pat[s.p]? = some '*') : GlobTurn pat txt s ⟨s.p + 1, s.t, some (s.p, s.t)⟩
  | back (c : Char) (hc : txt[s.t]? = some c) (hp : ∀ d, pat[s.p]? = some d → d ≠ '?' ∧ d ≠ c ∧ d ≠ '*') (sp st : ℕ)
      (hstar : s.star = some (sp, st)) : GlobTurn pat txt s ⟨sp + 1, st + 1, some (sp, st + 1)⟩

theorem turn_of_step (h : globStep pat txt s = .inr s') : GlobTurn pat txt s s' := by
  unfold globStep at h
  split_ifs at h with ht htake hstar
  · cases h
    obtain ⟨c, hc⟩ : ∃ c, txt[s.t]? = some c := ⟨_, getElem?_eq_getElem ht⟩
    exact .take c hc (by rw [← hc]; exact htake.2)
  · cases h
    exact .star _ (getElem?_eq_getElem ht) hstar.2
  · cases hlast : s.star with
    | none => rw [hlast] at h; cases h
    | some last =>
      rw [hlast] at h
      cases h
      refine .back _ (getElem?_eq_getElem ht) (fun d hd => ?_) _ _ hlast
      have hp : s.p < pat.length := (List.getElem?_eq_some_iff.1 hd).1
      rw [not_and, not_or] at htake
      rw [not_and] at hstar
      obtain ⟨hone, hsame⟩ := htake hp
      rw [hd] at hone hsame
      have hstar := hstar hp
      rw [hd] at hstar
      rw [getElem?_eq_getElem ht] at hsame
      exact ⟨fun h => hone (h ▸ rfl), fun h => hsame (h ▸ rfl), fun h => hstar (h ▸ rfl)⟩

theorem Ordered.step (h : Ordered pat txt s) (hturn : GlobTurn pat txt s s') : Ordered pat txt s' := by
  cases hturn with
  | take c hc hp =>
    have hlt : s.p < pat.length := by
      rcases hp with hp | hp <;> exact (List.getElem?_eq_some_iff.1 hp).1
    refine ⟨hlt, (List.getElem?_eq_some_iff.1 hc).1, fun sp st hstar => ?_⟩
    obtain ⟨hsp, hmany, hst⟩ := h.star sp st hstar
    exact ⟨Nat.lt_succ_of_lt hsp, hmany, Nat.le_succ_of_le hst⟩
  | star c hc hp =>
    refine ⟨(List.getElem?_eq_some_iff.1 hp).1, h.t, fun sp st hstar => ?_⟩
    cases hstar
    exact ⟨Nat.lt_succ_self _, hp, le_rfl⟩
  | back c hc hp sp st hstar =>
    obtain ⟨hsp, hmany, hst⟩ := h.star sp st hstar
    have hlt := (List.getElem?_eq_some_iff.1 hc).1
    refine ⟨hsp.trans_le h.p, hst.trans_lt hlt, fun sp' st' hstar' => ?_⟩
    cases hstar'
    exact ⟨Nat.lt_succ_self _, hmany, le_rfl⟩

/-- Turns that are left: a new `*` is further on in the pattern, the text that the
last one takes grows, and else the scan goes on. -/
def turnsLeft (pat txt : List Char) (s : GlobState) : ℕ :=
  let n := txt.length + 1
  (match s.star with
  | some (sp, st) => (pat.length - sp) * n + (txt.length - st)
  | none => (pat.length + 1) * n) * n + (txt.length - s.t)

theorem turnsLeft_lt (h : Ordered pat txt s) (hturn : GlobTurn pat txt s s') : turnsLeft pat txt s' < turnsLeft pat txt s := by
  cases hturn with
  | take c hc hp =>
    have hlt := (List.getElem?_eq_some_iff.1 hc).1
    unfold turnsLeft
    dsimp only
    omega
  | star c hc hp =>
    have hlt := (List.getElem?_eq_some_iff.1 hp).1
    -- the first factor falls by one or more
    have hfall : (pat.length - s.p) * (txt.length + 1) + (txt.length - s.t) + 1 ≤ (pat.length - s.p + 1) * (txt.length + 1) := by
      rw [Nat.succ_mul]
      omega
    unfold turnsLeft
    dsimp only
    refine Nat.add_lt_add_right (Nat.mul_lt_mul_of_pos_right (Nat.lt_of_succ_le (hfall.trans ?_)) (Nat.succ_pos _)) _
    cases hlast : s.star with
    | none => exact Nat.mul_le_mul_right _ (by omega)
    | some last =>
      have hsp := (h.star last.1 last.2 hlast).1
      exact le_trans (Nat.mul_le_mul_right _ (by omega)) (Nat.le_add_right _ _)
  | back c hc hp sp st hstar =>
    have hlt := (List.getElem?_eq_some_iff.1 hc).1
    have hst := (h.star sp st hstar).2.2
    unfold turnsLeft
    rw [hstar]
    dsimp only
    have hfall : (pat.length - sp) * (txt.length + 1) + (txt.length - (st + 1)) + 1 ≤ (pat.length - sp) * (txt.length + 1) + (txt.length - st) := by
      omega
    have hmul := Nat.mul_le_mul_right (txt.length + 1) hfall
    rw [Nat.succ_mul] at hmul
    omega

variable {turns : ℕ}

/-- With turns for all that are left, the loop ends. -/
theorem globLoop_isSome (h : Ordered pat txt s) (hturns : turnsLeft pat txt s < turns) :
    (globLoop pat txt turns s).isSome = true := by
  induction turns generalizing s with
  | zero => omega
  | succ turns ih =>
    rw [globLoop]
    cases hstep : globStep pat txt s with
    | inl verdict => rfl
    | inr s' =>
      have hturn := turn_of_step hstep
      have hless := turnsLeft_lt h hturn
      exact ih (h.step hturn) (by omega)

theorem turnsLeft_init (pat txt : List Char) : turnsLeft pat txt .init < globTurns pat txt := by
  unfold turnsLeft globTurns GlobState.init
  dsimp only
  have hsplit : (pat.length + 2) * (txt.length + 1) * (txt.length + 1) =
      (pat.length + 1) * (txt.length + 1) * (txt.length + 1) + (txt.length + 1) * (txt.length + 1) := by ring
  have hsquare : txt.length + 1 ≤ (txt.length + 1) * (txt.length + 1) := Nat.le_mul_of_pos_left _ (Nat.succ_pos _)
  omega

/-- The loop ends on every pattern and name. -/
theorem globLoop_ends (pattern name : String) :
    globLoop pattern.toList name.toList (globTurns pattern.toList name.toList) .init = some (globMatches pattern name) := by
  obtain ⟨verdict, hverdict⟩ := Option.isSome_iff_exists.1 (globLoop_isSome (ordered_init pattern.toList name.toList) (turnsLeft_init _ _))
  rw [globMatches, hverdict, Option.getD_some]

/-! ## What a run still has to match -/

/-- The rest of the name is of the rest of the pattern, or a later rest is of what
follows the last `*`. -/
def Remains (pat txt : List Char) (s : GlobState) : Prop :=
  WildMatch ((pat.map globItem).drop s.p) (txt.drop s.t) ∨
    ∃ sp st, s.star = some (sp, st) ∧ ∃ k ≥ 1, WildMatch ((pat.map globItem).drop (sp + 1)) (txt.drop (st + k))

variable {i : ℕ} {c : Char}

theorem drop_items (h : pat[i]? = some c) :
    (pat.map globItem).drop i = globItem c :: (pat.map globItem).drop (i + 1) := by
  obtain ⟨hlt, rfl⟩ := List.getElem?_eq_some_iff.1 h
  rw [drop_eq_getElem_cons (by simpa using hlt), getElem_map]

theorem drop_text (h : txt[i]? = some c) : txt.drop i = c :: txt.drop (i + 1) := by
  obtain ⟨hlt, rfl⟩ := List.getElem?_eq_some_iff.1 h
  exact drop_eq_getElem_cons hlt

variable {u : List Char}

/-- Every character stands for itself, among others. -/
theorem wildMatch_self_cons (c : Char) {items : List (WildItem Char)} (h : WildMatch items u) :
    WildMatch (globItem c :: items) (c :: u) := by
  unfold globItem
  split_ifs
  · exact .many [c] h
  · exact .one c h
  · exact .char c h

theorem wildMatch_self_append (a : List Char) {items : List (WildItem Char)} (h : WildMatch items u) :
    WildMatch (a.map globItem ++ items) (a ++ u) := by
  induction a with
  | nil => exact h
  | cons c a ih => exact wildMatch_self_cons c ih

/-- No turn makes more of what is left. -/
theorem remains_of_turn (hturn : GlobTurn pat txt s s') (h : Remains pat txt s') : Remains pat txt s := by
  cases hturn with
  | take c hc hp =>
    refine h.imp_left fun h => ?_
    rw [drop_text hc]
    rcases hp with hp | hp
    · rw [drop_items hp]
      exact .one c h
    · rw [drop_items hp]
      exact wildMatch_self_cons c h
  | star c hc hp =>
    left
    rw [drop_items hp]
    rcases h with h | ⟨_, _, hlast, k, -, h⟩
    · exact WildMatch.many_iff.2 ⟨0, h⟩
    · cases hlast
      exact WildMatch.many_iff.2 ⟨k, by rwa [drop_drop]⟩
  | back c hc hp sp st hstar =>
    right
    rcases h with h | ⟨_, _, hlast, k, -, h⟩
    · exact ⟨sp, st, hstar, 1, le_rfl, h⟩
    · cases hlast
      exact ⟨sp, st, hstar, k + 1, Nat.le_add_left _ _, by rwa [← Nat.add_assoc, Nat.add_right_comm]⟩

/-- A `*` of the pattern in front of a `*` of the name. -/
def Meets (pat txt : List Char) (s : GlobState) : Prop := pat[s.p]? = some '*' ∧ txt[s.t]? = some '*'

/-- The run has come from the last `*` character by character. -/
def Straight (pat : List Char) (s : GlobState) : Prop :=
  ∀ sp st, s.star = some (sp, st) → s.t = st + (s.p - (sp + 1)) ∧ ∀ i, sp < i → i < s.p → pat[i]? ≠ some '*'

theorem Straight.step (hordered : Ordered pat txt s) (hmeets : ¬ Meets pat txt s) (h : Straight pat s) (hturn : GlobTurn pat txt s s') :
    Straight pat s' := by
  intro sp' st' hstar'
  cases hturn with
  | take c hc hp =>
    obtain ⟨ht, hseg⟩ := h _ _ hstar'
    have hsp := (hordered.star _ _ hstar').1
    refine ⟨by dsimp only; omega, fun i hi hip => ?_⟩
    rcases Nat.lt_or_eq_of_le (Nat.le_of_lt_succ hip) with hlt | rfl
    · exact hseg i hi hlt
    · intro hmany
      rcases hp with hp | hp
      · rw [hp] at hmany
        cases hmany
      · exact hmeets ⟨hmany, by rw [hc, ← hp, hmany]⟩
  | star c hc hp =>
    cases hstar'
    exact ⟨by simp, fun i hi hip => by dsimp only at hip; omega⟩
  | back c hc hp sp st hstar =>
    cases hstar'
    exact ⟨by simp, fun i hi hip => by dsimp only at hip; omega⟩

/-- What follows the last `*` begins with what was just compared. -/
theorem Straight.drop (hordered : Ordered pat txt s) (h : Straight pat s) {sp st k : ℕ} (hstar : s.star = some (sp, st))
    (hmatch : WildMatch ((pat.map globItem).drop (sp + 1)) (txt.drop (st + k))) :
    WildMatch ((pat.map globItem).drop s.p) ((txt.drop s.t).drop k) := by
  obtain ⟨ht, hseg⟩ := h _ _ hstar
  have hsp := (hordered.star _ _ hstar).1
  have hlen : (((pat.map globItem).drop (sp + 1)).take (s.p - (sp + 1))).length = s.p - (sp + 1) := by
    have hp := hordered.p
    simp
    omega
  have hsplit := take_append_drop (s.p - (sp + 1)) ((pat.map globItem).drop (sp + 1))
  rw [drop_drop, Nat.add_sub_cancel' hsp] at hsplit
  rw [← hsplit] at hmatch
  have hrest := WildMatch.of_segment (fun hmany => ?_) hmatch
  · rw [hlen, drop_drop] at hrest
    rw [drop_drop, ht]
    rwa [show st + (s.p - (sp + 1)) + k = st + k + (s.p - (sp + 1)) by omega]
  · obtain ⟨i, hi, hitem⟩ := getElem_of_mem hmany
    simp only [getElem_take, getElem_drop, getElem_map, globItem] at hitem
    split_ifs at hitem with hc
    exact hseg (sp + 1 + i) (by omega) (by omega) (by rw [← hc]; exact getElem?_eq_getElem _)

/-- Apart from such a meeting, a turn loses nothing of what is left. -/
theorem Remains.step (hordered : Ordered pat txt s) (hmeets : ¬ Meets pat txt s) (hstraight : Straight pat s) (hturn : GlobTurn pat txt s s')
    (h : Remains pat txt s) : Remains pat txt s' := by
  cases hturn with
  | take c hc hp =>
    refine h.imp_left fun h => ?_
    rw [drop_text hc] at h
    rcases hp with hp | hp
    · rw [drop_items hp] at h
      exact WildMatch.one_cons_iff.1 h
    · have hmany : c ≠ '*' := fun hmany => hmeets ⟨hmany ▸ hp, hmany ▸ hc⟩
      rw [drop_items hp, globItem, if_neg hmany] at h
      split_ifs at h
      · exact WildMatch.one_cons_iff.1 h
      · exact (WildMatch.char_cons_iff.1 h).2
  | star c hc hp =>
    have hmany : WildMatch ((pat.map globItem).drop s.p) (txt.drop s.t) := by
      rcases h with h | ⟨sp, st, hstar, k, -, h⟩
      · exact h
      · have hdrop := hstraight.drop hordered hstar h
        rw [drop_items hp] at hdrop ⊢
        exact WildMatch.many_of_drop hdrop
    rw [drop_items hp] at hmany
    obtain ⟨k, hk⟩ := WildMatch.many_iff.1 hmany
    cases k with
    | zero => exact .inl hk
    | succ k => exact .inr ⟨_, _, rfl, k + 1, Nat.le_add_left _ _, by rwa [drop_drop] at hk⟩
  | back c hc hp sp st hstar =>
    rcases h with h | ⟨_, _, hstar', k, hk, h⟩
    · -- nothing of the pattern takes this character
      exfalso
      rw [drop_text hc] at h
      cases hd : pat[s.p]? with
      | none =>
        rw [drop_eq_nil_of_le (by simpa using hd)] at h
        cases h
      | some d =>
        obtain ⟨hone, hsame, hmany⟩ := hp d hd
        rw [drop_items hd, globItem, if_neg hmany, if_neg hone] at h
        exact hsame (WildMatch.char_cons_iff.1 h).1
    · obtain ⟨rfl, rfl⟩ : sp = _ ∧ st = _ := by simpa [hstar] using hstar'
      rcases Nat.lt_or_eq_of_le hk with hlt | rfl
      · exact .inr ⟨_, _, rfl, k - 1, by omega, by rwa [show st + 1 + (k - 1) = st + k by omega]⟩
      · exact .inl h

/-! ## Verdicts -/

theorem remains_of_verdict (h : globStep pat txt s = .inl true) : Remains pat txt s := by
  unfold globStep at h
  split_ifs at h with ht
  · cases hstar : s.star with
    | none => rw [hstar] at h; cases h
    | some last => rw [hstar] at h; cases h
  · have hall := Sum.inl.inj h
    rw [all_eq_true] at hall
    left
    rw [drop_eq_nil_of_le (not_lt.1 ht), ← map_drop, WildMatch.empty_iff]
    rintro _ hitem
    obtain ⟨c, hc, rfl⟩ := mem_map.1 hitem
    rw [of_decide_eq_true (hall c hc)]
    rfl

variable {verdict : Bool}

theorem verdict_of_remains (hordered : Ordered pat txt s) (hstraight : Straight pat s) (h : globStep pat txt s = .inl verdict)
    (hremains : Remains pat txt s) : verdict = true := by
  unfold globStep at h
  split_ifs at h with ht htake hmany
  · cases hstar : s.star with
    | some last => rw [hstar] at h; cases h
    | none =>
      -- the character is of no item, and there is no `*` to go back to
      exfalso
      rcases hremains with hrest | ⟨_, _, hstar', -⟩
      · rw [drop_eq_getElem_cons ht] at hrest
        cases hd : pat[s.p]? with
        | none =>
          rw [drop_eq_nil_of_le (by simpa using hd)] at hrest
          cases hrest
        | some d =>
          have hp := (List.getElem?_eq_some_iff.1 hd).1
          rw [not_and, not_or, hd] at htake
          rw [not_and, hd] at hmany
          have hone : d ≠ '?' := fun h => (htake hp).1 (h ▸ rfl)
          have hother : d ≠ '*' := fun h => hmany hp (h ▸ rfl)
          rw [drop_items hd, globItem, if_neg hother, if_neg hone] at hrest
          exact (htake hp).2 (by rw [(WildMatch.char_cons_iff.1 hrest).1, getElem?_eq_getElem ht])
      · rw [hstar] at hstar'
        cases hstar'
  · have hrest : WildMatch ((pat.map globItem).drop s.p) [] := by
      have hnil : txt.drop s.t = [] := drop_eq_nil_of_le (not_lt.1 ht)
      rcases hremains with hrest | ⟨sp, st, hstar, k, -, hrest⟩
      · rwa [hnil] at hrest
      · have hdrop := hstraight.drop hordered hstar hrest
        rwa [hnil, drop_nil] at hdrop
    obtain rfl := Sum.inl.inj h
    rw [← map_drop, WildMatch.empty_iff] at hrest
    rw [all_eq_true]
    intro c hc
    have hitem := hrest _ (mem_map_of_mem hc)
    unfold globItem at hitem
    split_ifs at hitem with hc
    exact decide_eq_true hc

/-! ## Runs -/

def GlobReaches (pat txt : List Char) : GlobState → GlobState → Prop :=
  Relation.ReflTransGen fun s s' => globStep pat txt s = .inr s'

theorem remains_of_loop (h : globLoop pat txt turns s = some true) : Remains pat txt s := by
  induction turns generalizing s with
  | zero => cases h
  | succ turns ih =>
    rw [globLoop] at h
    cases hstep : globStep pat txt s with
    | inl verdict =>
      rw [hstep] at h
      obtain rfl := Option.some.inj h
      exact remains_of_verdict hstep
    | inr s' =>
      rw [hstep] at h
      exact remains_of_turn (turn_of_step hstep) (ih h)

theorem loop_of_remains (hordered : Ordered pat txt s) (hstraight : Straight pat s)
    (hmeets : ∀ s', GlobReaches pat txt s s' → ¬ Meets pat txt s') (hremains : Remains pat txt s)
    (h : globLoop pat txt turns s = some verdict) : verdict = true := by
  induction turns generalizing s with
  | zero => cases h
  | succ turns ih =>
    rw [globLoop] at h
    cases hstep : globStep pat txt s with
    | inl verdict =>
      rw [hstep] at h
      obtain rfl := Option.some.inj h
      exact verdict_of_remains hordered hstraight hstep hremains
    | inr s' =>
      rw [hstep] at h
      have hturn := turn_of_step hstep
      have hhere := hmeets s .refl
      exact ih (hordered.step hturn) (hstraight.step hordered hhere hturn) (fun t ht => hmeets t (.head hstep ht))
        (hremains.step hordered hhere hstraight hturn) h

variable {pattern name : String}

theorem remains_init : Remains pattern.toList name.toList .init ↔ GlobLanguage pattern name := by
  unfold Remains GlobLanguage GlobState.init
  simp

/-! ## What the scan has passed -/

/-- What is behind the scan is matched, up to the last `*` too, and what stands before
the next `*` has no match that ends sooner. -/
structure Scanned (pat txt : List Char) (s : GlobState) : Prop where
  behind : WildMatch ((pat.map globItem).take s.p) (txt.take s.t)
  star : ∀ sp st, s.star = some (sp, st) → WildMatch ((pat.map globItem).take (sp + 1)) (txt.take st)
  first : ∀ q, s.p ≤ q → pat[q]? = some '*' → (∀ i, s.p ≤ i → i < q → pat[i]? ≠ some '*') →
    ∀ m < s.t + (q - s.p), ¬ WildMatch ((pat.map globItem).take q) (txt.take m)

theorem take_items (h : pat[i]? = some c) :
    (pat.map globItem).take (i + 1) = (pat.map globItem).take i ++ [globItem c] := by
  rw [take_add_one, getElem?_map, h]
  rfl

theorem take_text (h : txt[i]? = some c) : txt.take (i + 1) = txt.take i ++ [c] := by
  rw [take_add_one, h]
  rfl

/-- The items between two places that have no `*` between them. -/
def between (pat : List Char) (i j : ℕ) : List (WildItem Char) := ((pat.map globItem).drop i).take (j - i)

theorem many_notMem_between {j : ℕ} (h : ∀ k, i ≤ k → k < j → pat[k]? ≠ some '*') : .many ∉ between pat i j := by
  intro hmem
  obtain ⟨k, hk⟩ := mem_iff_getElem?.1 hmem
  rw [between, getElem?_take] at hk
  split_ifs at hk with hlt
  rw [getElem?_drop, getElem?_map, Option.map_eq_some_iff] at hk
  obtain ⟨c, hc, hitem⟩ := hk
  unfold globItem at hitem
  split_ifs at hitem with hstar
  exact h (i + k) (Nat.le_add_right _ _) (by omega) (hstar ▸ hc)

/-- A match up to the next `*` is one up to the last and as many characters. -/
theorem wildMatch_take {j : ℕ} {w : List Char} (hi : pat[i]? = some '*') (hij : i < j) (hj : j ≤ pat.length)
    (hseg : ∀ k, i < k → k < j → pat[k]? ≠ some '*') (h : WildMatch ((pat.map globItem).take j) w) :
    ∃ a b c, w = a ++ (b ++ c) ∧ WildMatch ((pat.map globItem).take i) a ∧ WildMatch (between pat (i + 1) j) c ∧
      c.length = j - (i + 1) := by
  have hsplit : (pat.map globItem).take j = (pat.map globItem).take i ++ .many :: between pat (i + 1) j := by
    have hitems := take_append_drop (i + 1) ((pat.map globItem).take j)
    rw [take_take, min_eq_left hij, drop_take, take_items hi, append_assoc] at hitems
    exact hitems.symm
  rw [hsplit] at h
  obtain ⟨a, w, rfl, ha, hw⟩ := WildMatch.append_iff.1 h
  cases hw with
  | @many b _ c hc =>
    refine ⟨a, b, c, rfl, ha, hc, ?_⟩
    rw [WildMatch.length_eq (many_notMem_between hseg) hc, between]
    simp
    omega

theorem scanned_init (pat txt : List Char) : Scanned pat txt .init where
  behind := .nil
  star := nofun
  first q _ hq hseg m hm hmatch := by
    have hlt := (List.getElem?_eq_some_iff.1 hq).1
    have hlen := WildMatch.length_eq (many_notMem_between hseg) hmatch
    simp [between, GlobState.init] at hlen hm
    omega

theorem Scanned.step (hordered : Ordered pat txt s) (hmeets : ¬ Meets pat txt s) (hstraight : Straight pat s) (h : Scanned pat txt s)
    (hturn : GlobTurn pat txt s s') : Scanned pat txt s' := by
  cases hturn with
  | take c hc hp =>
    obtain ⟨d, hd, hone⟩ : ∃ d, pat[s.p]? = some d ∧ WildMatch [globItem d] [c] := by
      rcases hp with hp | hp
      · exact ⟨_, hp, .one c .nil⟩
      · exact ⟨_, hp, wildMatch_self_cons c .nil⟩
    refine ⟨?_, h.star, fun q hq hmany hseg m hm => ?_⟩
    · rw [take_items hd, take_text hc]
      exact WildMatch.append_iff.2 ⟨_, _, rfl, h.behind, hone⟩
    · dsimp only at hq hseg hm
      refine h.first q (by omega) hmany (fun i hi hiq => ?_) m (by omega)
      rcases Nat.lt_or_eq_of_le hi with hlt | rfl
      · exact hseg i hlt hiq
      · intro hstar
        rcases hp with hp | hp
        · rw [hp] at hstar
          cases hstar
        · exact hmeets ⟨hstar, by rw [hc, ← hp, hstar]⟩
  | star c hc hp =>
    have hbehind : WildMatch ((pat.map globItem).take (s.p + 1)) (txt.take s.t) := by
      rw [take_items hp]
      exact WildMatch.append_iff.2 ⟨_, [], (append_nil _).symm, h.behind, .many [] .nil⟩
    refine ⟨hbehind, fun sp st hstar => ?_, fun q hq hmany hseg m hm hmatch => ?_⟩
    · cases hstar
      exact hbehind
    · dsimp only at hq hseg hm
      obtain ⟨a, b, c, hm', ha, -, hlen⟩ := wildMatch_take hp hq (List.getElem?_eq_some_iff.1 hmany).1.le hseg hmatch
      have hsum := congrArg List.length hm'
      simp only [length_take, length_append] at hsum
      have htaken : txt.take a.length = a := by
        rw [← take_append_drop m txt, hm', append_assoc, take_left]
      exact h.first s.p le_rfl hp (fun i hi hip => absurd (hi.trans_lt hip) (lt_irrefl _)) a.length (by omega) (htaken.symm ▸ ha)
  | back c hc hp sp st hstar =>
    obtain ⟨hsp, hsome, hst⟩ := hordered.star _ _ hstar
    obtain ⟨ht, hseg⟩ := hstraight _ _ hstar
    have hlt := (List.getElem?_eq_some_iff.1 hc).1
    have hbehind : WildMatch ((pat.map globItem).take (sp + 1)) (txt.take (st + 1)) := by
      have hbefore := h.star _ _ hstar
      rw [take_items hsome] at hbefore ⊢
      obtain ⟨a, b, hab, ha, hb⟩ := WildMatch.append_iff.1 hbefore
      rw [take_text (getElem?_eq_getElem (hst.trans_lt hlt)), hab, append_assoc]
      exact WildMatch.append_iff.2 ⟨a, _, rfl, ha, by simpa [globItem] using @WildMatch.many _ (b ++ _) [] [] .nil⟩
    refine ⟨hbehind, fun sp' st' hstar' => ?_, fun q hq hmany hnext m hm hmatch => ?_⟩
    · cases hstar'
      exact hbehind
    · dsimp only at hq hnext hm
      have hle := (List.getElem?_eq_some_iff.1 hmany).1.le
      have hpq : s.p < q := by
        by_contra hge
        rcases Nat.lt_or_eq_of_le (not_lt.1 hge) with hgt | rfl
        · exact hseg q hq hgt hmany
        · exact (hp _ hmany).2.2 rfl
      have hfirst := h.first q hpq.le hmany fun i hi hiq => hnext i (by omega) hiq
      obtain ⟨a, b, e, hm', -, he, hlen⟩ := wildMatch_take hsome hq hle hnext hmatch
      have hsum := congrArg List.length hm'
      simp only [length_take, length_append] at hsum
      -- a match that does not end sooner takes the character that was refused
      have hends : min m txt.length = st + (q - (sp + 1)) := by
        by_contra hne
        refine hfirst (min m txt.length) (by omega) ?_
        rwa [← take_take, take_length]
      have hchar : e[s.p - (sp + 1)]? = some c := by
        have hget := congrArg (·[s.t]?) hm'
        rw [getElem?_take_of_lt (by omega), hc, ← append_assoc, getElem?_append_right (by rw [length_append]; omega)] at hget
        rw [hget, length_append]
        congr 1
        omega
      obtain ⟨d, hd⟩ : ∃ d, pat[s.p]? = some d := ⟨_, getElem?_eq_getElem (hpq.trans_le hle)⟩
      obtain ⟨hone, hsame, hother⟩ := hp d hd
      have hitem : (between pat (sp + 1) q)[s.p - (sp + 1)]? = some (.char d) := by
        rw [between, getElem?_take_of_lt (by omega), getElem?_drop, getElem?_map, show sp + 1 + (s.p - (sp + 1)) = s.p by omega, hd]
        simp [globItem, hone, hother]
      exact hsame (WildMatch.char_eq (many_notMem_between hnext) he hitem hchar)

/-- The matcher finds every `*` of the pattern, and none in front of a `*` of the name:
where the name has a `*`, the pattern up to its own has no match that ends there, or
a shorter one. -/
def Apart (pattern name : String) : Prop :=
  ∀ u v w x, pattern.toList = u ++ '*' :: v → name.toList = w ++ '*' :: x → WildMatch (u.map globItem) w →
    ∃ w', w' <+: w ∧ w' ≠ w ∧ WildMatch (u.map globItem) w'

theorem apart_not_meets (h : Apart pattern name) (hscanned : Scanned pattern.toList name.toList s) :
    ¬ Meets pattern.toList name.toList s := by
  rintro ⟨hp, ht⟩
  have hpat : pattern.toList = pattern.toList.take s.p ++ '*' :: pattern.toList.drop (s.p + 1) := by
    rw [← drop_text hp, take_append_drop]
  have htxt : name.toList = name.toList.take s.t ++ '*' :: name.toList.drop (s.t + 1) := by
    rw [← drop_text ht, take_append_drop]
  have hbehind := hscanned.behind
  rw [← map_take] at hbehind
  obtain ⟨w', hpre, hne, hmatch⟩ := h _ _ _ _ hpat htxt hbehind
  have hlen := hpre.length_le
  rw [length_take] at hlen
  have hless : w'.length ≠ (name.toList.take s.t).length := fun hsame => hne (hpre.eq_of_length hsame)
  rw [length_take] at hless
  refine hscanned.first s.p le_rfl hp (fun i hi hip => absurd (hi.trans_lt hip) (lt_irrefl _)) w'.length (by omega) ?_
  rw [← map_take]
  rwa [← prefix_iff_eq_take.1 (hpre.trans (List.take_prefix _ _))]

/-- The run goes on as long as it is within both parts. -/
theorem globStep_within {v w x : List Char} (hp : s.p < u.length) (ht : s.t < w.length) :
    globStep (u ++ v) (w ++ x) s = globStep u w s := by
  have hp' : s.p < (u ++ v).length := by rw [length_append]; omega
  have ht' : s.t < (w ++ x).length := by rw [length_append]; omega
  unfold globStep
  rw [if_pos ht, if_pos ht', getElem?_append_left hp, getElem?_append_left ht]
  simp only [hp, hp', true_and]

/-- A shortest match that ends in front of a `*` of the name is where the run comes to. -/
theorem meets_of_shortest {u v w x : List Char} (hshort : ∀ w', w' <+: w → WildMatch (u.map globItem) w' → w' = w)
    (hordered : Ordered u w s) (hstraight : Straight u s) (hscanned : Scanned u w s) (hremains : Remains u w s) :
    ∃ s', GlobReaches (u ++ '*' :: v) (w ++ '*' :: x) s s' ∧ Meets (u ++ '*' :: v) (w ++ '*' :: x) s' := by
  induction hleft : turnsLeft u w s using Nat.strong_induction_on generalizing s with
  | _ n ih =>
    by_cases hmeets : Meets (u ++ '*' :: v) (w ++ '*' :: x) s
    · exact ⟨s, .refl, hmeets⟩
    have hp : s.p < u.length := by
      refine lt_of_le_of_ne hordered.p fun hp => hmeets ?_
      have hbehind := hscanned.behind
      rw [take_of_length_le (by simp [hp])] at hbehind
      have ht := congrArg List.length (hshort _ (List.take_prefix _ _) hbehind)
      rw [length_take, min_eq_left hordered.t] at ht
      exact ⟨by simp [hp], by simp [ht]⟩
    cases hstep : globStep u w s with
    | inl verdict =>
      exfalso
      rw [verdict_of_remains hordered hstraight hstep hremains] at hstep
      unfold globStep at hstep
      split_ifs at hstep with ht
      · cases hstar : s.star with
        | none => rw [hstar] at hstep; cases hstep
        | some last => rw [hstar] at hstep; cases hstep
      · have hall := all_eq_true.1 (Sum.inl.inj hstep) _ (getElem_mem (by simpa using hp : 0 < (u.drop s.p).length))
        have hend : s.t = w.length := le_antisymm hordered.t (not_lt.1 ht)
        refine hmeets ⟨?_, by simp [hend]⟩
        rw [getElem?_append_left hp, getElem?_eq_getElem hp]
        simpa using hall
    | inr s' =>
      have hturn := turn_of_step hstep
      have ht : s.t < w.length := by
        by_contra ht
        rw [globStep, if_neg ht] at hstep
        cases hstep
      have hwithin : ¬ Meets u w s := fun h =>
        hmeets ⟨by rw [getElem?_append_left hp, h.1], by rw [getElem?_append_left ht, h.2]⟩
      obtain ⟨t, hreaches, hmeet⟩ := ih _ (hleft ▸ turnsLeft_lt hordered hturn) (hordered.step hturn)
        (hstraight.step hordered hwithin hturn) (hscanned.step hordered hwithin hstraight hturn)
        (hremains.step hordered hwithin hstraight hturn) rfl
      exact ⟨t, .head ((globStep_within hp ht).trans hstep) hreaches, hmeet⟩

/-- It is the condition that the run never has a `*` of the pattern in front of one of
the name. -/
theorem apart_iff {pattern name : String} :
    Apart pattern name ↔ ∀ s, GlobReaches pattern.toList name.toList .init s → ¬ Meets pattern.toList name.toList s := by
  constructor
  · intro h s hreaches
    suffices hinv : Ordered pattern.toList name.toList s ∧ Straight pattern.toList s ∧ Scanned pattern.toList name.toList s from
      apart_not_meets h hinv.2.2
    induction hreaches with
    | refl => exact ⟨ordered_init _ _, nofun, scanned_init _ _⟩
    | tail _ hstep ih =>
      obtain ⟨hordered, hstraight, hscanned⟩ := ih
      have hmeets := apart_not_meets h hscanned
      have hturn := turn_of_step hstep
      exact ⟨hordered.step hturn, hstraight.step hordered hmeets hturn, hscanned.step hordered hmeets hstraight hturn⟩
  · intro h u v w x hpat htxt hmatch
    by_contra hnone
    have hshort : ∀ w', w' <+: w → WildMatch (u.map globItem) w' → w' = w := fun w' hpre hw' =>
      by_contra fun hne => hnone ⟨w', hpre, hne, hw'⟩
    obtain ⟨s, hreaches, hmeets⟩ := @meets_of_shortest _ _ v _ x hshort (ordered_init u w) nofun (scanned_init u w) (.inl hmatch)
    rw [hpat, htxt] at h
    exact h s hreaches hmeets

/-- The matcher says what the documentation does. -/
def Right (pattern name : String) : Prop := globMatches pattern name = true ↔ GlobLanguage pattern name

theorem language_of_globMatches (h : globMatches pattern name = true) : GlobLanguage pattern name :=
  remains_init.1 (remains_of_loop ((globLoop_ends pattern name).trans (congrArg some h)))

theorem right_of_apart (h : Apart pattern name) : Right pattern name :=
  ⟨language_of_globMatches, fun hlanguage =>
    loop_of_remains (ordered_init _ _) nofun (apart_iff.1 h) (remains_init.2 hlanguage) (globLoop_ends pattern name)⟩

/-! ## Where it goes wrong -/

/-- A run that compares character by character and meets no other `*`. -/
theorem loop_of_aligned (hi : i ≤ pat.length) (hi' : i ≤ txt.length)
    (haligned : ∀ j < pat.length, j < txt.length → pat[j]? = some '?' ∨ pat[j]? = txt[j]?)
    (h : globLoop pat txt turns ⟨i, i, none⟩ = some verdict) :
    verdict = (decide (txt.length ≤ pat.length) && (pat.drop txt.length).all (· = '*')) := by
  induction turns generalizing i with
  | zero => cases h
  | succ turns ih =>
    rw [globLoop, globStep] at h
    by_cases ht : i < txt.length
    · rw [if_pos ht] at h
      by_cases hp : i < pat.length
      · rw [if_pos ⟨hp, haligned i hp ht⟩] at h
        exact ih hp ht h
      · rw [if_neg fun h => hp h.1, if_neg fun h => hp h.1] at h
        obtain rfl := Option.some.inj h
        rw [decide_eq_false (by omega), Bool.false_and]
    · rw [if_neg ht] at h
      obtain rfl := Option.some.inj h
      obtain rfl : i = txt.length := by omega
      rw [decide_eq_true hi, Bool.true_and]

/-- For a name with a `*` there is a pattern that should match it and does not. -/
theorem exists_pattern_wrong (h : '*' ∈ name.toList) : ∃ pattern, ¬ Right pattern name := by
  obtain ⟨u, v, huv⟩ := append_of_mem h
  refine ⟨.ofList (List.replicate u.length '?' ++ '*' :: List.replicate ('*' :: v).length '?'), fun hright => ?_⟩
  have hlanguage : GlobLanguage (.ofList (List.replicate u.length '?' ++ '*' :: List.replicate ('*' :: v).length '?')) name := by
    have hones : WildMatch (List.replicate ('*' :: v).length .one) ('*' :: v) := by
      simpa using WildMatch.ones_append ('*' :: v) .nil
    rw [GlobLanguage, huv, String.toList_ofList, map_append, map_replicate, map_cons, map_replicate]
    exact WildMatch.ones_append u (WildMatch.many_iff.2 ⟨0, hones⟩)
  have hends := (globLoop_ends _ name).trans (congrArg some (hright.2 hlanguage))
  have hverdict := loop_of_aligned (Nat.zero_le _) (Nat.zero_le _) (fun j hj hj' => ?_) hends
  · -- one `?` is left over
    have hrest : (List.replicate u.length '?' ++ '*' :: List.replicate ('*' :: v).length '?').drop (u ++ '*' :: v).length = ['?'] := by
      rw [length_cons, replicate_succ', ← cons_append, ← append_assoc, drop_left' (by simp)]
    rw [huv, String.toList_ofList, hrest] at hverdict
    simp at hverdict
  · rw [huv] at hj' ⊢
    rw [String.toList_ofList]
    rcases Nat.lt_trichotomy j u.length with hlt | rfl | hgt
    · left
      rw [getElem?_append_left (by simpa using hlt), getElem?_replicate, if_pos hlt]
    · right
      simp
    · left
      obtain ⟨k, rfl⟩ := Nat.exists_eq_add_of_lt hgt
      rw [length_append] at hj'
      rw [getElem?_append_right (by simp; omega), length_replicate, show u.length + k + 1 - u.length = k + 1 by omega,
        getElem?_cons_succ, getElem?_replicate, if_pos (by omega)]

/-- For a pattern with a `*` there is a name that it should match and does not. -/
theorem exists_name_wrong (h : '*' ∈ pattern.toList) : ∃ name, ¬ Right pattern name := by
  obtain ⟨a, b, hab⟩ := append_of_mem h
  refine ⟨.ofList (pattern.toList ++ 'x' :: b), fun hright => ?_⟩
  have hlanguage : GlobLanguage pattern (.ofList (pattern.toList ++ 'x' :: b)) := by
    rw [GlobLanguage, String.toList_ofList, hab, map_append, append_assoc, map_cons]
    refine wildMatch_self_append a ?_
    have hself : WildMatch (b.map globItem) b := by simpa using wildMatch_self_append b .nil
    exact WildMatch.many_iff.2 ⟨('*' :: b ++ ['x']).length, by simpa using hself⟩
  have hends := (globLoop_ends pattern _).trans (congrArg some (hright.2 hlanguage))
  have hverdict := loop_of_aligned (Nat.zero_le _) (Nat.zero_le _) (fun j hj _ => ?_) hends
  · rw [String.toList_ofList] at hverdict
    simp at hverdict
  · right
    rw [String.toList_ofList, getElem?_append_left hj]

/-- The loop ends with a verdict. It takes no name that the pattern does not stand
for, and it takes all of them unless a `*` of the pattern meets one of the name, which
is read off the two. A name is safe with every pattern, and a pattern with every name,
exactly if it has no `*`. -/
theorem globMatches_right (pattern name : String) :
    (∃ turns, globLoop pattern.toList name.toList turns .init = some (globMatches pattern name)) ∧
    (globMatches pattern name = true → GlobLanguage pattern name) ∧
    (Apart pattern name → Right pattern name) ∧
    (Apart pattern name ↔ ∀ s, GlobReaches pattern.toList name.toList .init s → ¬ Meets pattern.toList name.toList s) ∧
    ((∀ pattern, Right pattern name) ↔ '*' ∉ name.toList) ∧
    ((∀ name, Right pattern name) ↔ '*' ∉ pattern.toList) := by
  refine ⟨⟨_, globLoop_ends pattern name⟩, language_of_globMatches, right_of_apart, apart_iff, ⟨fun h hmem => ?_, fun h pattern => ?_⟩,
    fun h hmem => ?_, fun h name => ?_⟩
  · obtain ⟨pattern, hwrong⟩ := exists_pattern_wrong hmem
    exact hwrong (h pattern)
  · exact right_of_apart (apart_iff.2 fun s _ hmeets => h (mem_of_getElem? hmeets.2))
  · obtain ⟨name, hwrong⟩ := exists_name_wrong hmem
    exact hwrong (h name)
  · exact right_of_apart (apart_iff.2 fun s _ hmeets => h (mem_of_getElem? hmeets.1))

/-- The pattern stands for the name, and the file is skipped. -/
theorem star_name_skipped : GlobLanguage "*.json" "*a.json" ∧ globMatches "*.json" "*a.json" = false := by
  refine ⟨?_, by decide⟩
  exact WildMatch.many ['*', 'a'] (wildMatch_self_append ['.', 'j', 's', 'o', 'n'] .nil)

end FerroDruid.Overlord
