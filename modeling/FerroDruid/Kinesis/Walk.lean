import FerroDruid.Kinesis.Frontier
import Mathlib.Data.List.TakeWhile
import Mathlib.Data.Set.Basic
import Mathlib.Order.Bounds.Basic
/-!
# The walk over the spans of a shard

Merging leaves the walk as it is. Spans are walked by their ranges, and spans of one
range in the order they are listed, so the order decides how far the walk gets when two
spans of one range do not agree on whether they continue what is below them.
-/

namespace FerroDruid.Kinesis

open ShardResume

/-! ## Merging -/

variable (m y : SeqSpan) (rest : List SeqSpan)

theorem pushSpan_cons_cons (x : SeqSpan) :
    pushSpan (m :: y :: rest) x = m :: pushSpan (y :: rest) x := by
  unfold pushSpan
  rw [List.getLast?_cons_cons]
  cases hlast : (y :: rest).getLast? with
  | none => simp at hlast
  | some prev =>
    dsimp only
    split_ifs <;> simp

/-- The first interval keeps its head. -/
theorem pushSpan_head (x : SeqSpan) :
    ∃ y' rest', pushSpan (y :: rest) x = y' :: rest' ∧ y'.start = y.start ∧ y'.prevLast = y.prevLast := by
  cases rest with
  | cons z rest => exact ⟨y, _, pushSpan_cons_cons y z rest x, rfl, rfl⟩
  | nil =>
    unfold pushSpan
    dsimp only [List.getLast?_singleton]
    split_ifs
    · exact ⟨_, [], rfl, rfl, rfl⟩
    · exact ⟨y, [], rfl, rfl, rfl⟩
    · exact ⟨y, [x], rfl, rfl, rfl⟩

variable (spans : List SeqSpan)

theorem foldl_pushSpan_cons_cons :
    ∃ y' rest', spans.foldl pushSpan (m :: y :: rest) = m :: y' :: rest' ∧ y'.start = y.start ∧ y'.prevLast = y.prevLast := by
  induction spans generalizing y rest with
  | nil => exact ⟨y, rest, rfl, rfl, rfl⟩
  | cons x spans ih =>
    obtain ⟨y₁, rest₁, hpush, hstart₁, hprev₁⟩ := pushSpan_head y rest x
    obtain ⟨y', rest', hfold, hstart, hprev⟩ := ih y₁ rest₁
    rw [List.foldl_cons, pushSpan_cons_cons, hpush]
    exact ⟨y', rest', hfold, hstart.trans hstart₁, hprev.trans hprev₁⟩

theorem walk_foldl_pushSpan_singleton (h : m.prevLast = none) :
    walk none (spans.foldl pushSpan [m]) = walk (some m.last) spans := by
  induction spans generalizing m with
  | nil => simp [walk, chains, advance, h]
  | cons x spans ih =>
    rw [List.foldl_cons]
    by_cases hchains : chains (some m.last) x = true
    · have hmerge : x.start ≤ m.last ∨ x.prevLast = some m.last := by
        rw [chains, decide_eq_true_eq] at hchains
        exact hchains.symm
      have hpush : pushSpan [m] x = if m.last < x.last then [{ m with last := x.last }] else [m] := by
        simp [pushSpan, hmerge]
      rw [hpush, walk, if_pos hchains, advance]
      split_ifs
      · exact ih { m with last := x.last } h
      · exact ih m h
    · -- a new interval begins, and the walk stops before it
      have hmerge : ¬ (x.start ≤ m.last ∨ x.prevLast = some m.last) := fun hmerge =>
        hchains (by rw [chains, decide_eq_true_eq]; exact hmerge.symm)
      have hpush : pushSpan [m] x = [m, x] := by simp [pushSpan, hmerge]
      obtain ⟨x', rest', hfold, hstart, hprev⟩ := foldl_pushSpan_cons_cons m x [] spans
      have hchains' : ¬ chains (some m.last) x' = true := by
        rw [chains, hstart, hprev]
        exact hchains
      rw [hpush, hfold, walk, if_pos (by simp [chains, h]), advance, walk, if_neg hchains', walk, if_neg hchains]

/-- Merging does not change how far the walk gets. -/
theorem walk_foldl_pushSpan : walk none (spans.foldl pushSpan []) = walk none spans := by
  cases spans with
  | nil => rfl
  | cons m spans =>
    rw [List.foldl_cons]
    by_cases h : m.prevLast = none
    · rw [walk, if_pos (by simp [chains, h]), advance]
      exact walk_foldl_pushSpan_singleton m spans h
    · have hstop : ¬ chains none m = true := by simp [chains, h]
      have hhead : ∃ m' rest', spans.foldl pushSpan [m] = m' :: rest' ∧ m'.prevLast = m.prevLast := by
        generalize ([] : List SeqSpan) = rest
        induction spans generalizing m rest with
        | nil => exact ⟨m, rest, rfl, rfl⟩
        | cons x spans ih =>
          obtain ⟨m₁, rest₁, hpush, -, hprev₁⟩ := pushSpan_head m rest x
          obtain ⟨m', rest', hfold, hprev⟩ := ih m₁ (hprev₁ ▸ h) (by simp [chains, hprev₁, h]) rest₁
          rw [List.foldl_cons, hpush]
          exact ⟨m', rest', hfold, hprev.trans hprev₁⟩
      obtain ⟨m', rest', hfold, hprev⟩ := hhead
      have hstop' : ¬ chains none m' = true := by simp [chains, hprev, h]
      rw [show pushSpan [] m = [m] from rfl, hfold, walk, if_neg hstop', walk, if_neg hstop]

/-- The spans that are walked, by their ranges. -/
def sortedSpans (spans : List SeqSpan) : List SeqSpan :=
  (spans.filter fun span => span.start ≤ span.last).insertionSort fun a b => spanBefore a b

/-- How far the shard is covered. -/
def resumePoint (spans : List SeqSpan) : Option SeqNum := walk none (sortedSpans spans)

def positionAfter : Option SeqNum → StartPosition
  | none => .trimHorizon
  | some p => .afterSequenceNumber p

@[simp] theorem positionAfter_none : positionAfter none = .trimHorizon := rfl

@[simp] theorem positionAfter_some (p : SeqNum) : positionAfter (some p) = .afterSequenceNumber p := rfl

theorem positionAfter_injective : Function.Injective positionAfter := fun p q h => by cases p <;> cases q <;> simp_all

theorem resumeStartPosition_new (shardId : String) (spans : List SeqSpan) :
    (ShardResume.new shardId spans).resumeStartPosition = positionAfter (resumePoint spans) := by
  unfold ShardResume.resumeStartPosition ShardResume.new foldSpans
  rw [walk_foldl_pushSpan]
  rfl

/-! ## Ranges -/

/-- The range of a span comes before that of another. -/
def Before (a b : SeqSpan) : Prop := a.start.value < b.start.value ∨ a.start = b.start ∧ a.last.value < b.last.value

variable {a b : SeqSpan}

theorem spanBefore_iff : spanBefore a b = true ↔ ¬ Before b a := by
  unfold spanBefore Before
  rw [decide_eq_true_eq, SeqNum.cmp_eq, SeqNum.cmp_eq, not_iff_not, Ordering.then_eq_gt, Nat.compare_eq_gt, Nat.compare_eq_gt,
    Nat.compare_eq_eq]
  constructor
  · rintro (h | ⟨h, hlast⟩)
    · exact .inl h
    · exact .inr ⟨SeqNum.value_injective h.symm, hlast⟩
  · rintro (h | ⟨h, hlast⟩)
    · exact .inl h
    · exact .inr ⟨congrArg SeqNum.value h.symm, hlast⟩

theorem Before.trichotomy (a b : SeqSpan) : Before a b ∨ (a.start = b.start ∧ a.last = b.last) ∨ Before b a := by
  rcases lt_trichotomy a.start.value b.start.value with h | h | h
  · exact .inl (.inl h)
  · have hstart : a.start = b.start := SeqNum.value_injective h
    rcases lt_trichotomy a.last.value b.last.value with h | h | h
    · exact .inl (.inr ⟨hstart, h⟩)
    · exact .inr (.inl ⟨hstart, SeqNum.value_injective h⟩)
    · exact .inr (.inr (.inr ⟨hstart.symm, h⟩))
  · exact .inr (.inr (.inl h))

theorem Before.trans {c : SeqSpan} (h : Before a b) (h' : Before b c) : Before a c := by
  rcases h with h | ⟨h, hlast⟩
  · rcases h' with h' | ⟨h', -⟩
    · exact .inl (h.trans h')
    · exact .inl (h' ▸ h)
  · rcases h' with h' | ⟨h', hlast'⟩
    · exact .inl (h ▸ h')
    · exact .inr ⟨h.trans h', hlast.trans hlast'⟩

theorem Before.irrefl (a : SeqSpan) : ¬ Before a a := by simp [Before]

theorem Before.congr {x : SeqSpan} (hstart : a.start = b.start) (hlast : a.last = b.last) : Before x a ↔ Before x b := by
  unfold Before
  rw [hstart, hlast]

instance : Std.Total fun a b : SeqSpan => (spanBefore a b : Prop) := ⟨fun a b => by
  rw [spanBefore_iff, spanBefore_iff]
  by_contra h
  push Not at h
  exact Before.irrefl a (h.2.trans h.1)⟩

instance : IsTrans SeqSpan fun a b => (spanBefore a b : Prop) := ⟨fun a b c hab hbc => by
  rw [spanBefore_iff] at hab hbc ⊢
  intro hca
  rcases Before.trichotomy a b with h | ⟨hstart, hlast⟩ | h
  · exact hbc (hca.trans h)
  · exact hbc ((Before.congr hstart hlast).1 hca)
  · exact hab h⟩

theorem pairwise_sortedSpans : (sortedSpans spans).Pairwise fun a b => ¬ Before b a :=
  (List.pairwise_insertionSort _ _).imp fun h => spanBefore_iff.1 h

theorem mem_sortedSpans {spans : List SeqSpan} {span : SeqSpan} : span ∈ sortedSpans spans ↔ span ∈ spans ∧ span.start ≤ span.last := by
  rw [sortedSpans, List.mem_insertionSort, List.mem_filter, decide_eq_true_eq]

/-- A span that is listed first comes right after the spans below it. -/
theorem sortedSpans_cons {span : SeqSpan} {spans : List SeqSpan} (h : span.start ≤ span.last) :
    ∃ below rest, sortedSpans (span :: spans) = below ++ span :: rest ∧
      ∀ y, y ∈ below ↔ y ∈ sortedSpans (span :: spans) ∧ Before y span := by
  have hsplit : sortedSpans (span :: spans) =
      (sortedSpans spans).takeWhile (fun b => ¬ spanBefore span b) ++ span :: (sortedSpans spans).dropWhile fun b => ¬ spanBefore span b := by
    unfold sortedSpans
    rw [List.filter_cons_of_pos (by simpa using h), List.insertionSort_cons_eq_take_drop]
  refine ⟨_, _, hsplit, fun y => ?_⟩
  have hpairwise := pairwise_sortedSpans (span :: spans)
  rw [hsplit] at hpairwise ⊢
  constructor
  · intro hy
    have hnot := List.mem_takeWhile_imp hy
    rw [decide_eq_true_eq, spanBefore_iff, not_not] at hnot
    exact ⟨List.mem_append_left _ hy, hnot⟩
  · rintro ⟨hy, hbefore⟩
    rcases List.mem_append.1 hy with hy | hy
    · exact hy
    · rcases List.mem_cons.1 hy with rfl | hy
      · exact absurd hbefore (Before.irrefl y)
      · exact absurd hbefore ((List.pairwise_cons.1 (List.pairwise_append.1 hpairwise).2.1).1 y hy)

/-! ## How far the spans reach -/

/-- Where an unbroken walk over the spans ends. -/
def reach (spans : List SeqSpan) : Option SeqNum := spans.foldl advance none

theorem reach_append_singleton (x : SeqSpan) : reach (spans ++ [x]) = advance (reach spans) x := by
  unfold reach
  rw [List.foldl_append, List.foldl_cons, List.foldl_nil]

theorem isGreatest_advance {point : Option SeqNum} {x : SeqSpan} {lasts : Set SeqNum} (h : ∀ p, point = some p → IsGreatest lasts p)
    (hnone : point = none → lasts = ∅) : ∃ p, advance point x = some p ∧ IsGreatest (lasts ∪ {x.last}) p := by
  cases point with
  | none =>
    rw [hnone rfl, Set.empty_union]
    exact ⟨x.last, rfl, rfl, fun q hq => by cases hq; exact SeqNum.le_iff.2 le_rfl⟩
  | some p =>
    obtain ⟨hp, hupper⟩ := h p rfl
    unfold advance
    dsimp only
    split_ifs with hlt
    · rw [SeqNum.lt_iff] at hlt
      refine ⟨x.last, rfl, .inr rfl, ?_⟩
      rintro q (hq | rfl)
      · exact SeqNum.le_iff.2 ((SeqNum.le_iff.1 (hupper hq)).trans hlt.le)
      · exact SeqNum.le_iff.2 le_rfl
    · rw [SeqNum.lt_iff, not_lt] at hlt
      refine ⟨p, rfl, .inl hp, ?_⟩
      rintro q (hq | rfl)
      · exact hupper hq
      · exact SeqNum.le_iff.2 hlt

/-- It is the largest number that a span ends with. -/
theorem isGreatest_reach :
    (∀ p, reach spans = some p → IsGreatest {q | ∃ y ∈ spans, y.last = q} p) ∧ (reach spans = none → spans = []) := by
  induction spans using List.reverseRecOn with
  | nil => exact ⟨fun p h => absurd h (by simp [reach]), fun _ => rfl⟩
  | append_singleton spans x ih =>
    have hlasts : {q | ∃ y ∈ spans ++ [x], y.last = q} = {q | ∃ y ∈ spans, y.last = q} ∪ {x.last} := by
      ext q
      simp only [List.mem_append, List.mem_singleton, Set.mem_ofPred_eq, Set.mem_union, Set.mem_singleton_iff]
      constructor
      · rintro ⟨y, hy | rfl, rfl⟩
        · exact .inl ⟨y, hy, rfl⟩
        · exact .inr rfl
      · rintro (⟨y, hy, rfl⟩ | rfl)
        · exact ⟨y, .inl hy, rfl⟩
        · exact ⟨x, .inr rfl, rfl⟩
    have hempty : reach spans = none → {q | ∃ y ∈ spans, y.last = q} = ∅ := fun h => by simp [ih.2 h]
    obtain ⟨p, hp, hgreatest⟩ := isGreatest_advance (x := x) ih.1 hempty
    rw [reach_append_singleton, hp, hlasts]
    exact ⟨fun q hq => by cases hq; exact hgreatest, fun h => absurd h (by simp)⟩

theorem IsGreatest.unique_seqNum {lasts : Set SeqNum} {p q : SeqNum} (hp : IsGreatest lasts p) (hq : IsGreatest lasts q) : p = q :=
  SeqNum.value_injective (le_antisymm (SeqNum.le_iff.1 (hq.2 hp.1)) (SeqNum.le_iff.1 (hp.2 hq.1)))

/-- The same spans reach the same number, whatever their order. -/
theorem reach_congr {spans spans' : List SeqSpan} (h : ∀ y, y ∈ spans ↔ y ∈ spans') : reach spans = reach spans' := by
  have hlasts : {q | ∃ y ∈ spans, y.last = q} = {q | ∃ y ∈ spans', y.last = q} := by simp only [h]
  obtain ⟨hgreatest, hnone⟩ := isGreatest_reach spans
  obtain ⟨hgreatest', hnone'⟩ := isGreatest_reach spans'
  rw [hlasts] at hgreatest
  have hnil : spans = [] ↔ spans' = [] := by simp [List.eq_nil_iff_forall_not_mem, h]
  cases hp : reach spans with
  | none =>
    rw [hnil.1 (hnone hp)]
    rfl
  | some p =>
    cases hp' : reach spans' with
    | none =>
      rw [hnil.2 (hnone' hp')] at hp
      cases hp
    | some p' => rw [IsGreatest.unique_seqNum (hgreatest p hp) (hgreatest' p' hp')]

theorem walk_append {below : List SeqSpan}
    (h : ∀ b x b', below = b ++ x :: b' → chains (reach b) x = true) : walk none (below ++ rest) = walk (reach below) rest := by
  induction below using List.reverseRecOn generalizing rest with
  | nil => rfl
  | append_singleton below x ih =>
    have hchains := h below x [] rfl
    have hbelow : ∀ b y b', below = b ++ y :: b' → chains (reach b) y = true := fun b y b' heq => h b y (b' ++ [x]) (by simp [heq])
    rw [List.append_assoc, List.singleton_append, ih _ hbelow, walk, if_pos hchains, reach_append_singleton]

theorem le_walk (p : SeqNum) (spans : List SeqSpan) : ∃ q, walk (some p) spans = some q ∧ p ≤ q := by
  induction spans generalizing p with
  | nil => exact ⟨p, rfl, SeqNum.le_iff.2 le_rfl⟩
  | cons x spans ih =>
    unfold walk
    split_ifs
    · unfold advance
      dsimp only
      split_ifs with hlt
      · obtain ⟨q, hq, hle⟩ := ih x.last
        rw [SeqNum.lt_iff] at hlt
        exact ⟨q, hq, SeqNum.le_iff.2 (hlt.le.trans (SeqNum.le_iff.1 hle))⟩
      · exact ih p
    · exact ⟨p, rfl, SeqNum.le_iff.2 le_rfl⟩

end FerroDruid.Kinesis
