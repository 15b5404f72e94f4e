import FerroDruid.Lib.FloatRound
import FerroDruid.Query.WindowRanks
/-!
# Ranks agree with the order

What each ranking function has to write, and when it does: one text for each key
that is split by, or that ties; and no overwritten row, or wrapped position, that
is read.
-/

namespace FerroDruid.Query

open Lib List

/-! ## What is meant -/

variable (overflowChecks : Bool) (text : Json → Bytes) (spec : WindowSpec) (rows : Rows)

/-- What the row at position `i` of a partition has to get. -/
def rankValue (order : List ℕ) (i idx : ℕ) : Json :=
  let cmp := compareRows text spec.orderBy rows
  match spec.function with
  | .rowNumber => jsonInt (Int64.ofNat (i + 1))
  | .rank => jsonInt (Int64.ofNat (rankIn cmp order idx + 1))
  | .denseRank => jsonInt (Int64.ofNat (denseRankIn cmp order idx + 1))
  | .percentRank => if order.length = 1 then jsonFloat (.zero false) else quotient (rankIn cmp order idx) (order.length - 1)
  | .cumeDist => quotient (reachIn cmp order idx) order.length
  | .lag column offset => if offset.toNat ≤ i then cellAt rows order (i - offset.toNat) column else .null
  | .lead column offset => if i + offset.toNat < order.length then cellAt rows order (i + offset.toNat) column else .null
  | _ => .null

/-- The rows are split by equal keys, and each gets what it has to. -/
def RanksAgree : Prop :=
  (∀ a < rows.length, ∀ b < rows.length, partitionKey spec rows a = partitionKey spec rows b ↔ SameKey spec rows a b) ∧
    ∃ rows', applyWindow overflowChecks text rows spec = some rows' ∧
      ∀ r < rows.length, ∃ order, IsOrder text spec rows r order ∧
        ∀ i idx, order[i]? = some idx → rows'.get idx spec.outputName = some (rankValue text spec rows order i idx)

/-- A function that has to tell ties. -/
def WindowFunctionKind.TellsTies : WindowFunctionKind → Prop
  | .rank | .denseRank | .percentRank | .cumeDist => True
  | _ => False

/-- Ties of a partition have the same cells to order by. -/
def TiesSpelledAlike (order : List ℕ) : Prop :=
  ∀ a ∈ order, ∀ b ∈ order, compareRows text spec.orderBy rows a b = .eq → ∀ o ∈ spec.orderBy, rows.cell a o.column = rows.cell b o.column

/-- What is read is as it was: a lag into its own column has nothing to read but
nulls, and so has a lead past the last position there is, which must not panic. -/
def ReadsKept (order : List ℕ) : Prop :=
  match spec.function with
  | .lag column offset =>
    spec.outputName = column → offset.toNat ≠ 0 → ∀ i, i + offset.toNat < order.length → cellAt rows order i column = .null
  | .lead column offset =>
    ∀ i < order.length, 2 ^ 64 ≤ i + offset.toNat →
      overflowChecks = false ∧ (spec.outputName = column ∨ cellAt rows order (i + offset.toNat - 2 ^ 64) column = .null)
  | _ => True

def OrderKept (order : List ℕ) : Prop := (spec.function.TellsTies → TiesSpelledAlike text spec rows order) ∧ ReadsKept overflowChecks spec rows order

/-- Partition keys that are one value are spelled alike, and so are the order keys
that tie where ties are told; and what is read is as it was. -/
structure SpelledAlike : Prop where
  partitions : ∀ a < rows.length, ∀ b < rows.length, SameKey spec rows a b → ∀ c ∈ spec.partitionBy, rows.cell a c = rows.cell b c
  orders : ∀ r < rows.length, ∀ order, IsOrder text spec rows r order → OrderKept overflowChecks text spec rows order

variable {overflowChecks text spec rows}

theorem partitions_iff (hscalar : ScalarRows rows) :
    (∀ a < rows.length, ∀ b < rows.length, partitionKey spec rows a = partitionKey spec rows b ↔ SameKey spec rows a b) ↔
      ∀ a < rows.length, ∀ b < rows.length, SameKey spec rows a b → ∀ c ∈ spec.partitionBy, rows.cell a c = rows.cell b c := by
  refine forall₂_congr fun a _ => forall₂_congr fun b _ => ?_
  rw [partitionKey_eq_iff hscalar]
  refine ⟨fun h => h.2, fun h => ⟨fun heq c hc => ?_, h⟩⟩
  rw [heq c hc]
  exact SameCell.refl _

theorem isOrder_orderOf (htext : ScalarTexts text) (hscalar : ScalarRows rows)
    (hparts : ∀ a < rows.length, ∀ b < rows.length, partitionKey spec rows a = partitionKey spec rows b ↔ SameKey spec rows a b) {r : ℕ}
    (hr : r < rows.length) : IsOrder text spec rows r (orderOf text spec rows (partitionKey spec rows r)) where
  mem s := by
    rw [mem_orderOf]
    refine and_congr_right fun hs => ?_
    rw [← hparts r hr s hs]
    exact eq_comm
  sorted := sorted_sortBucket htext hscalar (pairwise_bucket _)

/-! ## One partition -/

/-- What a partition gets is what it has to get. -/
def OutsAgree (overflowChecks : Bool) (text : Json → Bytes) (spec : WindowSpec) (rows : Rows) (order : List ℕ) : Prop :=
  ∃ outs, partitionOuts overflowChecks spec rows order = some outs ∧ ∀ i idx, order[i]? = some idx → outs i = rankValue text spec rows order i idx

theorem jsonInt_ofNat_inj {a b : ℕ} (ha : a < 2 ^ 63) (hb : b < 2 ^ 63) : jsonInt (Int64.ofNat a) = jsonInt (Int64.ofNat b) ↔ a = b := by
  refine ⟨fun h => ?_, fun h => h ▸ rfl⟩
  have hint := congrArg Int64.toInt (Json.ofI64_inj.1 h)
  rw [Int64.toInt_ofNat_of_lt ha, Int64.toInt_ofNat_of_lt hb] at hint
  exact Int.ofNat_inj.1 hint

theorem quotient_eq {a n : ℕ} (ha : a ≤ n) (hn : 0 < n) (hle : n ≤ 2 ^ 52) : quotient a n =
    jsonFloat (.finite false ⟨F64.roundRatio (F64.unitsOne * a * F64.unitsOne) (F64.unitsOne * n), F64.roundRatio_lt ha hn hle⟩) := by
  have hunits : ∀ k ≤ n, F64.units (F64.roundBits (F64.unitsOne * (k : ℤ).natAbs)) = F64.unitsOne * k := fun k hk => F64.units_ofInt (by omega)
  unfold quotient
  rw [F64.ofInt_eq (show (a : ℤ).natAbs < 2 ^ 64 by omega), F64.ofInt_eq (show (n : ℤ).natAbs < 2 ^ 64 by omega)]
  simp only [hunits a ha, hunits n (le_refl n)]
  rw [dif_pos (F64.roundRatio_lt ha hn hle)]

theorem quotient_inj {a b n : ℕ} (ha : a ≤ n) (hb : b ≤ n) (hn : 0 < n) (hle : n ≤ 2 ^ 52) : quotient a n = quotient b n ↔ a = b := by
  refine ⟨fun h => ?_, fun h => h ▸ rfl⟩
  rw [quotient_eq ha hn hle, quotient_eq hb hn hle] at h
  have hfinite : ∀ m, (F64.finite false m).isFinite = true := fun _ => rfl
  have hfloat : ∀ m, jsonFloat (.finite false m) = .number (.float (.finite false m) (hfinite m)) := fun _ => rfl
  rw [hfloat, hfloat, Json.number.injEq, JsonNumber.float.injEq, F64.finite.injEq, Fin.mk.injEq] at h
  exact F64.roundRatio_inj ha hb hle h.2

section

variable (htext : ScalarTexts text) (hscalar : ScalarRows rows) {order : List ℕ} (hbucket : IsBucket rows order)
  (hsorted : order.Pairwise fun a b => compareKeys spec.orderBy rows a b ≠ .gt) {i : ℕ}

theorem getD_position (hi : i < order.length) : order.getD i 0 = order[i] := by
  rw [getD_eq_getElem?_getD, getElem?_eq_getElem hi, Option.getD_some]

/-- Neighbours that tie. -/
def TieAt (spec : WindowSpec) (rows : Rows) (order : List ℕ) (i : ℕ) : Prop :=
  ∃ _hi : i + 1 < order.length, compareKeys spec.orderBy rows order[i] order[i + 1] = .eq

instance (spec : WindowSpec) (rows : Rows) (order : List ℕ) (i : ℕ) : Decidable (TieAt spec rows order i) := inferInstanceAs (Decidable (∃ _, _))

include hscalar in
theorem tieAt_of_key (hi : i + 1 < order.length) (h : keyAt spec rows order (i + 1) = keyAt spec rows order i) : TieAt spec rows order i := by
  rw [keyAt_eq_some hi, keyAt_eq_some (show i < order.length by omega)] at h
  exact ⟨hi, compareKeys_of_orderKey hscalar (Option.some.inj h).symm⟩

include htext hscalar hsorted in
theorem tiesSpelledAlike_iff :
    TiesSpelledAlike text spec rows order ↔ ∀ i, i + 1 < order.length → TieAt spec rows order i →
      keyAt spec rows order (i + 1) = keyAt spec rows order i := by
  unfold TiesSpelledAlike
  rw [compareRows_eq htext _ hscalar]
  simp only [← orderKey_eq_iff hscalar]
  rw [← ties_keyed_iff hsorted (orderKey spec rows)]
  constructor
  · rintro h i hi ⟨_, htie⟩
    rw [keyAt_eq_some hi, keyAt_eq_some (show i < order.length by omega), h i hi htie]
  · intro h i hi htie
    have hkey := h i hi ⟨hi, htie⟩
    rw [keyAt_eq_some hi, keyAt_eq_some (show i < order.length by omega)] at hkey
    exact Option.some.inj hkey

include htext hscalar hsorted

/-- A scan counts as `f` does when ties are spelled alike: `f` stays over a tie, and
goes on as the scan does after another key. -/
theorem rankOf_iff {fresh : ℕ → ℕ → ℕ} {f : ℕ → ℕ} (hzero : ∀ hpos : 0 < order.length, f order[0] + 1 = fresh 0 0)
    (hsucc : ∀ i (hi : i + 1 < order.length), f order[i + 1] + 1 =
      if compareKeys spec.orderBy rows order[i] order[i + 1] = .eq then f order[i] + 1 else fresh (i + 1) (f order[i] + 1))
    (hfresh : ∀ i (hi : i + 1 < order.length), fresh (i + 1) (f order[i] + 1) ≠ f order[i] + 1) :
    (∀ i (hi : i < order.length), rankOf fresh spec rows order i = f order[i] + 1) ↔ TiesSpelledAlike text spec rows order := by
  rw [tiesSpelledAlike_iff htext hscalar hsorted, ← tieNumber_eq_iff (f := fun i => f (order.getD i 0) + 1) (fun i hi => tieAt_of_key hscalar hi)]
  · refine forall₂_congr fun i hi => ?_
    rw [getD_position hi]
    rfl
  · intro hpos
    rw [getD_position hpos, hzero hpos]
  · intro i hi
    rw [getD_position hi, getD_position (show i < order.length by omega), hsucc i hi]
    by_cases htie : TieAt spec rows order i
    · rw [if_pos htie, if_pos htie.2]
    · rw [if_neg htie, if_neg fun h => htie ⟨hi, h⟩]
  · intro i hi
    rw [getD_position (show i < order.length by omega)]
    exact hfresh i hi

/-- The scan counts what comes before. -/
theorem rankOf_rank_iff : (∀ i (hi : i < order.length),
    rankOf (fun i _ => i + 1) spec rows order i = rankIn (compareRows text spec.orderBy rows) order order[i] + 1) ↔
      TiesSpelledAlike text spec rows order := by
  rw [compareRows_eq htext _ hscalar]
  refine rankOf_iff htext hscalar hsorted (fun hpos => by rw [rankIn_zero hsorted hpos]) (fun i hi => ?_) fun i hi => ?_
  · rw [rankIn_succ hsorted hi]
    split_ifs <;> rfl
  · have hle := rankIn_le hsorted (i := i) (by omega)
    omega

theorem rankOf_denseRank_iff : (∀ i (hi : i < order.length),
    rankOf (fun _ current => current + 1) spec rows order i = denseRankIn (compareRows text spec.orderBy rows) order order[i] + 1) ↔
      TiesSpelledAlike text spec rows order := by
  rw [compareRows_eq htext _ hscalar]
  refine rankOf_iff htext hscalar hsorted (fun hpos => by rw [denseRankIn_zero hsorted hpos]) (fun i hi => ?_) fun i _ => Nat.succ_ne_self _
  rw [denseRankIn_succ hsorted hi]
  split_ifs <;> rfl

/-- The runs end where the ties do when ties are spelled alike. -/
theorem runEnd_of_tiesSpelledAlike (hties : TiesSpelledAlike text spec rows order) (hi : i < order.length) :
    runEnd (keyAt spec rows order) order.length i = reachIn (compareRows text spec.orderBy rows) order order[i] := by
  rw [tiesSpelledAlike_iff htext hscalar hsorted] at hties
  have hrun := runEnd_eq (f := fun i => reachIn (compareKeys spec.orderBy rows) order (order.getD i 0)) (fun i hi => tieAt_of_key hscalar hi)
    (fun i hi => ?_) hties i hi
  · rw [hrun, getD_position hi, compareRows_eq htext _ hscalar]
  · rw [getD_position hi]
    by_cases htie : TieAt spec rows order i
    · rw [if_pos ⟨htie.1, htie⟩, getD_position htie.1]
      exact reachIn_tie htie.1 htie.2
    · rw [if_neg fun h => htie h.2]
      exact reachIn_next hsorted hi fun hnext h => htie ⟨hnext, h⟩

/-- A run that ends between ties is too short. -/
theorem tiesSpelledAlike_of_runEnd
    (h : ∀ i (hi : i < order.length), runEnd (keyAt spec rows order) order.length i = reachIn (compareRows text spec.orderBy rows) order order[i]) :
    TiesSpelledAlike text spec rows order := by
  rw [tiesSpelledAlike_iff htext hscalar hsorted]
  rintro i hi ⟨_, htie⟩
  by_contra hne
  have hrun := h i (by omega)
  rw [runEnd_of_ne hne, compareRows_eq htext _ hscalar, reachIn_tie hi htie] at hrun
  have hlt := lt_reachIn hsorted hi
  omega

omit htext hscalar hsorted in
theorem outsAgree_iff_some {outs : ℕ → Json} (houts : partitionOuts overflowChecks spec rows order = some outs) :
    OutsAgree overflowChecks text spec rows order ↔ ∀ i (hi : i < order.length), outs i = rankValue text spec rows order i order[i] := by
  constructor
  · rintro ⟨outs', houts', hall⟩ i hi
    obtain rfl := Option.some.inj (houts.symm.trans houts')
    exact hall i _ (getElem?_eq_getElem hi)
  · intro hall
    refine ⟨outs, houts, fun i idx hidx => ?_⟩
    obtain ⟨hi, rfl⟩ := List.getElem?_eq_some_iff.1 hidx
    exact hall i hi

omit htext hscalar hsorted in
/-- A lag reads what it has to, or finds the nulls it would have found. -/
theorem lagAgrees_iff {column : String} {offset : UInt64} (hfunction : spec.function = .lag column offset) :
    OutsAgree overflowChecks text spec rows order ↔ ReadsKept overflowChecks spec rows order := by
  have houts : partitionOuts overflowChecks spec rows order = some fun i =>
      if spec.outputName = column ∧ offset.toNat ≠ 0 then .null
      else if offset.toNat ≤ i then cellAt rows order (i - offset.toNat) column else .null := by
    unfold partitionOuts
    rw [hfunction]
  rw [outsAgree_iff_some houts]
  unfold ReadsKept rankValue
  rw [hfunction]
  dsimp only
  constructor
  · intro hall hself hoffset i hi
    have h := hall (i + offset.toNat) hi
    rw [if_pos ⟨hself, hoffset⟩, if_pos (Nat.le_add_left _ _), Nat.add_sub_cancel] at h
    exact h.symm
  · intro hnull i hi
    by_cases hself : spec.outputName = column ∧ offset.toNat ≠ 0
    · rw [if_pos hself]
      split_ifs with hle
      · have hback : i - offset.toNat + offset.toNat < order.length := by omega
        exact (hnull hself.1 hself.2 (i - offset.toNat) hback).symm
      · rfl
    · rw [if_neg hself]

omit htext hscalar hsorted in
/-- So does a lead, if it does not panic. -/
theorem leadAgrees_iff (hshort : order.length < 2 ^ 63) {column : String} {offset : UInt64} (hfunction : spec.function = .lead column offset) :
    OutsAgree overflowChecks text spec rows order ↔ ReadsKept overflowChecks spec rows order := by
  have hbound := offset.toNat_lt
  have hpart : partitionOuts overflowChecks spec rows order =
      if overflowChecks = true ∧ 2 ^ 64 < order.length + offset.toNat then none
      else some fun i =>
        if 2 ^ 64 ≤ i + offset.toNat ∧ spec.outputName = column then .null
        else if leadTarget i offset.toNat < order.length then cellAt rows order (leadTarget i offset.toNat) column else .null := by
    unfold partitionOuts
    rw [hfunction]
  have hkept : ReadsKept overflowChecks spec rows order ↔ ∀ i < order.length, 2 ^ 64 ≤ i + offset.toNat →
      overflowChecks = false ∧ (spec.outputName = column ∨ cellAt rows order (i + offset.toNat - 2 ^ 64) column = .null) := by
    unfold ReadsKept
    rw [hfunction]
  rw [hkept]
  by_cases hpanic : overflowChecks = true ∧ 2 ^ 64 < order.length + offset.toNat
  · rw [if_pos hpanic] at hpart
    constructor
    · rintro ⟨outs, houts, -⟩
      rw [hpart] at houts
      cases houts
    · intro hreads
      have h := (hreads (order.length - 1) (by omega) (by omega)).1
      rw [hpanic.1] at h
      cases h
  · rw [if_neg hpanic] at hpart
    rw [outsAgree_iff_some hpart]
    refine forall_congr' fun i => ?_
    constructor
    · intro hvalue hi hwrap
      have hchecks : overflowChecks = false := by
        by_contra hcheck
        exact hpanic ⟨by simpa using hcheck, by omega⟩
      refine ⟨hchecks, ?_⟩
      by_contra hnot
      rw [not_or] at hnot
      have h := hvalue hi
      have htarget : leadTarget i offset.toNat = i + offset.toNat - 2 ^ 64 := by rw [leadTarget, if_neg (by omega)]
      unfold rankValue at h
      rw [hfunction] at h
      have hin : i + offset.toNat - 2 ^ 64 < order.length := by omega
      have hpast : ¬ i + offset.toNat < order.length := by omega
      simp only [htarget] at h
      rw [if_neg (fun hand => hnot.1 hand.2), if_pos hin, if_neg hpast] at h
      exact hnot.2 h
    · intro hreads hi
      unfold rankValue
      rw [hfunction]
      dsimp only
      by_cases hwrap : 2 ^ 64 ≤ i + offset.toNat
      · have hpast : ¬ i + offset.toNat < order.length := by omega
        rw [if_neg hpast]
        rcases (hreads hi hwrap).2 with hself | hnull
        · rw [if_pos ⟨hwrap, hself⟩]
        · have htarget : leadTarget i offset.toNat = i + offset.toNat - 2 ^ 64 := by rw [leadTarget, if_neg (by omega)]
          rw [htarget, hnull, ite_self, ite_self]
      · have htarget : leadTarget i offset.toNat = i + offset.toNat := by rw [leadTarget, if_pos (by omega)]
        rw [if_neg (fun hand => hwrap hand.1), htarget]

theorem rankIn_at_le (hi : i < order.length) : rankIn (compareRows text spec.orderBy rows) order order[i] ≤ i := by
  rw [compareRows_eq htext _ hscalar]
  exact rankIn_le hsorted hi

theorem rankAgrees_iff (hshort : order.length < 2 ^ 63) (hfunction : spec.function = .rank) :
    OutsAgree overflowChecks text spec rows order ↔ TiesSpelledAlike text spec rows order := by
  have houts : partitionOuts overflowChecks spec rows order = some fun i => jsonInt (Int64.ofNat (rankOf (fun i _ => i + 1) spec rows order i)) := by
    unfold partitionOuts
    rw [hfunction]
  rw [outsAgree_iff_some houts, ← rankOf_rank_iff htext hscalar hsorted]
  refine forall₂_congr fun i hi => ?_
  have hle := rankIn_at_le htext hscalar hsorted hi
  have hscan : rankOf (fun i _ => i + 1) spec rows order i ≤ i + 1 := tieNumber_le _ (le_refl _) (fun _ _ _ => le_refl _) i
  unfold rankValue
  rw [hfunction]
  exact jsonInt_ofNat_inj (by omega) (by omega)

theorem denseRankAgrees_iff (hshort : order.length < 2 ^ 63) (hfunction : spec.function = .denseRank) :
    OutsAgree overflowChecks text spec rows order ↔ TiesSpelledAlike text spec rows order := by
  have houts : partitionOuts overflowChecks spec rows order =
      some fun i => jsonInt (Int64.ofNat (rankOf (fun _ current => current + 1) spec rows order i)) := by
    unfold partitionOuts
    rw [hfunction]
  rw [outsAgree_iff_some houts, ← rankOf_denseRank_iff htext hscalar hsorted]
  refine forall₂_congr fun i hi => ?_
  have hle := rankIn_at_le htext hscalar hsorted hi
  have hdense : denseRankIn (compareRows text spec.orderBy rows) order order[i] ≤ rankIn (compareRows text spec.orderBy rows) order order[i] :=
    denseRankIn_le_rankIn _
  have hscan : rankOf (fun _ current => current + 1) spec rows order i ≤ i + 1 :=
    tieNumber_le _ (le_refl _) (fun _ _ hc => Nat.succ_le_succ hc) i
  unfold rankValue
  rw [hfunction]
  exact jsonInt_ofNat_inj (by omega) (by omega)

theorem percentRankAgrees (hfunction : spec.function = .percentRank) :
    (TiesSpelledAlike text spec rows order → OutsAgree overflowChecks text spec rows order) ∧
      (order.length ≤ 2 ^ 52 → OutsAgree overflowChecks text spec rows order → TiesSpelledAlike text spec rows order) := by
  have houts : partitionOuts overflowChecks spec rows order = some fun i =>
      if order.length = 1 then jsonFloat (.zero false) else quotient (rankOf (fun i _ => i + 1) spec rows order i - 1) (order.length - 1) := by
    unfold partitionOuts
    rw [hfunction]
  rw [outsAgree_iff_some houts, ← rankOf_rank_iff htext hscalar hsorted]
  unfold rankValue
  rw [hfunction]
  dsimp only
  constructor
  · intro hranks i hi
    rw [hranks i hi, Nat.add_sub_cancel]
  · intro hlen hall i hi
    have hle := rankIn_at_le htext hscalar hsorted hi
    have hscan : rankOf (fun i _ => i + 1) spec rows order i ≤ i + 1 := tieNumber_le _ (le_refl _) (fun _ _ _ => le_refl _) i
    have hpos : 0 < rankOf (fun i _ => i + 1) spec rows order i := tieNumber_pos _ (fun _ _ => Nat.succ_pos _) i
    have hvalue := hall i hi
    by_cases hone : order.length = 1
    · omega
    · rw [if_neg hone, if_neg hone, quotient_inj (by omega) (by omega) (by omega) (by omega)] at hvalue
      omega

theorem cumeDistAgrees (hfunction : spec.function = .cumeDist) :
    (TiesSpelledAlike text spec rows order → OutsAgree overflowChecks text spec rows order) ∧
      (order.length ≤ 2 ^ 52 → OutsAgree overflowChecks text spec rows order → TiesSpelledAlike text spec rows order) := by
  have houts : partitionOuts overflowChecks spec rows order =
      some fun i => quotient (runEnd (keyAt spec rows order) order.length i) order.length := by
    unfold partitionOuts
    rw [hfunction]
  rw [outsAgree_iff_some houts]
  unfold rankValue
  rw [hfunction]
  constructor
  · intro hties i hi
    rw [runEnd_of_tiesSpelledAlike htext hscalar hsorted hties hi]
  · intro hlen hall
    refine tiesSpelledAlike_of_runEnd htext hscalar hsorted fun i hi => ?_
    exact (quotient_inj (runEnd_le _ hi) countP_le_length (by omega) hlen).1 (hall i hi)

omit htext hscalar hsorted in
theorem orderKept_of_tells (htells : spec.function.TellsTies) : OrderKept overflowChecks text spec rows order ↔
    TiesSpelledAlike text spec rows order := by
  refine ⟨fun h => h.1 htells, fun h => ⟨fun _ => h, ?_⟩⟩
  unfold ReadsKept
  cases hfunction : spec.function with
  | lag column offset =>
    rw [hfunction] at htells
    exact htells.elim
  | lead column offset =>
    rw [hfunction] at htells
    exact htells.elim
  | _ => trivial

omit htext hscalar hsorted in
theorem orderKept_of_not_tells (htells : ¬ spec.function.TellsTies) :
    OrderKept overflowChecks text spec rows order ↔ ReadsKept overflowChecks spec rows order :=
  ⟨fun h => h.2, fun h => ⟨fun hand => absurd hand htells, h⟩⟩

/-- A partition gets what it has to when its ties are spelled alike and what is
read is as it was. -/
theorem outsAgree_iff (hranking : spec.function.IsRanking) (hshort : order.length < 2 ^ 63) :
    (OrderKept overflowChecks text spec rows order → OutsAgree overflowChecks text spec rows order) ∧
      (order.length ≤ 2 ^ 52 → OutsAgree overflowChecks text spec rows order → OrderKept overflowChecks text spec rows order) := by
  have htied := @orderKept_of_tells overflowChecks text spec rows order
  have huntied := @orderKept_of_not_tells overflowChecks text spec rows order
  have hboth : ∀ {p q : Prop}, (p ↔ q) → (q → p) ∧ (order.length ≤ 2 ^ 52 → p → q) := fun h => ⟨h.2, fun _ => h.1⟩
  cases hfunction : spec.function with
  | rowNumber =>
    rw [hfunction] at huntied
    rw [huntied id]
    refine hboth (iff_of_true ?_ (by unfold ReadsKept; rw [hfunction]; trivial))
    refine ⟨fun i => jsonInt (Int64.ofNat (i + 1)), ?_, fun i idx _ => ?_⟩
    · unfold partitionOuts
      rw [hfunction]
    · unfold rankValue
      rw [hfunction]
  | rank =>
    rw [htied (by rw [hfunction]; trivial)]
    exact hboth (rankAgrees_iff htext hscalar hsorted hshort hfunction)
  | denseRank =>
    rw [htied (by rw [hfunction]; trivial)]
    exact hboth (denseRankAgrees_iff htext hscalar hsorted hshort hfunction)
  | percentRank =>
    rw [htied (by rw [hfunction]; trivial)]
    exact percentRankAgrees htext hscalar hsorted hfunction
  | cumeDist =>
    rw [htied (by rw [hfunction]; trivial)]
    exact cumeDistAgrees htext hscalar hsorted hfunction
  | lag column offset =>
    rw [huntied (by rw [hfunction]; exact id)]
    exact hboth (lagAgrees_iff hfunction)
  | lead column offset =>
    rw [huntied (by rw [hfunction]; exact id)]
    exact hboth (leadAgrees_iff hshort hfunction)
  | _ =>
    rw [hfunction] at hranking
    exact hranking.elim

end

/-! ## All partitions -/

/-- The window agrees when every partition does. -/
theorem ranksAgree_iff (htext : ScalarTexts text) (hscalar : ScalarRows rows) (hranking : spec.function.IsRanking) (hshort : rows.length < 2 ^ 63) :
    RanksAgree overflowChecks text spec rows ↔
      (∀ a < rows.length, ∀ b < rows.length, partitionKey spec rows a = partitionKey spec rows b ↔ SameKey spec rows a b) ∧
        ∀ r < rows.length, OutsAgree overflowChecks text spec rows (orderOf text spec rows (partitionKey spec rows r)) := by
  refine and_congr_right fun hparts => ?_
  have hmem : ∀ {r}, r < rows.length → partitionKey spec rows r ∈ partitionOrder spec rows := fun {r} hr =>
    mem_eraseDups.2 (mem_map.2 ⟨r, mem_range.2 hr, rfl⟩)
  have hall : ∀ {rows'}, PartitionsFilled overflowChecks text spec rows (partitionOrder spec rows) rows' → ((∀ r < rows.length, ∃ order,
      IsOrder text spec rows r order ∧ ∀ i idx, order[i]? = some idx → rows'.get idx spec.outputName = some (rankValue text spec rows order i idx)) ↔
        ∀ r < rows.length, OutsAgree overflowChecks text spec rows (orderOf text spec rows (partitionKey spec rows r))) := by
    intro rows' hfilled
    refine forall₂_congr fun r hr => ?_
    have horder := isOrder_orderOf htext hscalar hparts hr
    obtain ⟨outs, houts, hwritten⟩ := hfilled.written _ (hmem hr)
    constructor
    · rintro ⟨order, hisOrder, hvalues⟩
      obtain rfl := hisOrder.unique htext hscalar horder
      refine ⟨outs, houts, fun i idx hidx => ?_⟩
      exact Option.some.inj ((hwritten i idx hidx).symm.trans (hvalues i idx hidx))
    · rintro ⟨outs', houts', hvalues⟩
      obtain rfl := Option.some.inj (houts.symm.trans houts')
      exact ⟨_, horder, fun i idx hidx => by rw [hwritten i idx hidx, hvalues i idx hidx]⟩
  rcases @applyWindow_outs overflowChecks spec rows text hranking hshort with ⟨⟨key, hkey, hnone⟩, hwindow⟩ | ⟨rows', hwindow, hfilled⟩
  · refine iff_of_false ?_ ?_
    · rintro ⟨rows', hsome, -⟩
      rw [hwindow] at hsome
      cases hsome
    · intro hagree
      obtain ⟨r, hr, rfl⟩ := mem_map.1 (mem_eraseDups.1 hkey)
      obtain ⟨outs, houts, -⟩ := hagree r (mem_range.1 hr)
      rw [hnone] at houts
      cases houts
  · rw [← hall hfilled]
    constructor
    · rintro ⟨rows'', hsome, hvalues⟩
      obtain rfl := Option.some.inj (hwindow.symm.trans hsome)
      exact hvalues
    · exact fun hvalues => ⟨rows', hwindow, hvalues⟩

theorem sorted_of_isOrder (htext : ScalarTexts text) (hscalar : ScalarRows rows) {r : ℕ} {order : List ℕ} (h : IsOrder text spec rows r order) :
    order.Pairwise fun a b => compareKeys spec.orderBy rows a b ≠ .gt := by
  refine h.sorted.imp fun {a b} hab => ?_
  unfold Precedes at hab
  rw [compareRows_eq htext _ hscalar] at hab
  rcases hab with hlt | ⟨heq, -⟩
  · rw [hlt]
    exact nofun
  · rw [heq]
    exact nofun

theorem length_orderOf_le (key : List KeyText) : (orderOf text spec rows key).length ≤ rows.length := by
  have hlen : (orderOf text spec rows key).length = (bucket spec rows key).length := length_insertionSort ..
  rw [hlen]
  exact (length_filter_le ..).trans (length_range).le

/-- The ranking functions agree with the order when one value is spelled one way
in the keys and nothing that is read has been overwritten; on fewer than 2 to the
52 rows, only then. -/
theorem ranks_agree (overflowChecks : Bool) {text : Json → Bytes} (spec : WindowSpec) {rows : Rows} (htext : ScalarTexts text)
    (hscalar : ScalarRows rows) (hranking : spec.function.IsRanking) (hshort : rows.length < 2 ^ 63) :
    (SpelledAlike overflowChecks text spec rows → RanksAgree overflowChecks text spec rows) ∧
      (rows.length ≤ 2 ^ 52 → RanksAgree overflowChecks text spec rows → SpelledAlike overflowChecks text spec rows) := by
  have houts : (∀ a < rows.length, ∀ b < rows.length, partitionKey spec rows a = partitionKey spec rows b ↔ SameKey spec rows a b) →
      ∀ r < rows.length, _ := fun hparts r hr =>
    @outsAgree_iff overflowChecks _ _ _ htext hscalar _ (sorted_of_isOrder htext hscalar (isOrder_orderOf htext hscalar hparts hr)) hranking
      (lt_of_le_of_lt (length_orderOf_le _) hshort)
  rw [ranksAgree_iff htext hscalar hranking hshort]
  constructor
  · rintro ⟨hpartitions, horders⟩
    have hparts := (partitions_iff hscalar).2 hpartitions
    exact ⟨hparts, fun r hr => (houts hparts r hr).1 (horders r hr _ (isOrder_orderOf htext hscalar hparts hr))⟩
  · rintro hlen ⟨hparts, hagree⟩
    refine ⟨(partitions_iff hscalar).1 hparts, fun r hr order horder => ?_⟩
    rw [horder.unique htext hscalar (isOrder_orderOf htext hscalar hparts hr)]
    exact (houts hparts r hr).2 ((length_orderOf_le _).trans hlen) (hagree r hr)

/-- The JSON text of a scalar; of a float, when that is whole and small. -/
def scalarText : Json → Bytes
  | .null => ascii "null"
  | .bool true => ascii "true"
  | .bool false => ascii "false"
  | .number (.int n _) => (if n < 0 then [0x2D] else []) ++ decimal n.natAbs
  | .number (.float x _) => (if x.toI64.toInt < 0 then [0x2D] else []) ++ decimal x.toI64.toInt.natAbs ++ ascii ".0"
  | .string s => 0x22 :: s.bytes ++ [0x22]
  | .array _ => ascii "[]"
  | .object _ => ascii "{}"

theorem scalarTexts_scalarText : ScalarTexts scalarText where
  string s := ⟨s.bytes ++ [0x22], rfl⟩
  bool b := by cases b <;> exact ⟨_, _, rfl, by decide⟩
  number n := by
    have hsigned : ∀ (k : ℤ) (tail : Bytes), ∃ b bs, (if k < 0 then [0x2D] else []) ++ decimal k.natAbs ++ tail = b :: bs ∧ 0x2D ≤ b ∧ b ≤ 0x39 := by
      intro k tail
      split_ifs with hneg
      · exact ⟨0x2D, decimal k.natAbs ++ tail, rfl, by decide, by decide⟩
      · cases hdigits : decimal k.natAbs with
        | nil => exact absurd hdigits (decimal_ne_nil _)
        | cons b bs =>
          have hdigit := digit_bounds (isDigit_of_mem_decimal (n := k.natAbs) (b := b) (by rw [hdigits]; exact mem_cons_self ..))
          refine ⟨b, bs ++ tail, rfl, UInt8.le_iff_toNat_le.2 ?_, UInt8.le_iff_toNat_le.2 hdigit.2⟩
          exact le_trans (by decide) hdigit.1
    cases n with
    | int n range =>
      obtain ⟨b, bs, htext, hbounds⟩ := hsigned n []
      exact ⟨b, bs, by rw [← htext, append_nil]; rfl, hbounds⟩
    | float x finite => exact hsigned x.toI64.toInt (ascii ".0")

/-- `RANK() OVER (ORDER BY x) AS r`. -/
def rankSpec : WindowSpec where
  outputName := "r"
  function := .rank
  partitionBy := []
  orderBy := [⟨"x", .ascending⟩]
  frame := none

def rowOf (v : Json) : JsonMap := JsonMap.insert JsonMap.empty "x" v

theorem scalarRows_pair {v w : Json} (hv : IsScalar (some v)) (hw : IsScalar (some w)) : ScalarRows [rowOf v, rowOf w] := by
  have hrow : ∀ u, IsScalar (some u) → ∀ column, IsScalar (rowOf u column) := by
    intro u hu column
    by_cases hcolumn : column = "x"
    · subst hcolumn
      exact hu
    · rw [rowOf, JsonMap.insert_of_ne _ _ hcolumn]
      trivial
  intro idx column
  match idx with
  | 0 => exact hrow v hv column
  | 1 => exact hrow w hw column
  | _ + 2 => trivial

theorem compareRows_pair (v w : Json) : compareRows scalarText rankSpec.orderBy [rowOf v, rowOf w] 0 1 = compareJson scalarText (some v) (some w) := by
  show ((compareJson scalarText (some v) (some w)).then .eq) = _
  cases compareJson scalarText (some v) (some w) <;> rfl

/-- Two rows that differ are no ties. -/
theorem spelledAlike_pair {v w : Json} (htie : ∀ o, compareJson scalarText (some v) (some w) = o → o ≠ .eq)
    (hscalar : ScalarRows [rowOf v, rowOf w]) : SpelledAlike true scalarText rankSpec [rowOf v, rowOf w] := by
  have hne : compareRows scalarText rankSpec.orderBy [rowOf v, rowOf w] 0 1 ≠ .eq := by
    rw [compareRows_pair]
    exact htie _ rfl
  refine ⟨fun a _ b _ _ c hc => (not_mem_nil hc).elim, fun r _ order horder => ⟨fun _ a ha b hb htied o _ => ?_, trivial⟩⟩
  have hswap : compareRows scalarText rankSpec.orderBy [rowOf v, rowOf w] 1 0 ≠ .eq := by
    rw [compareRows_eq scalarTexts_scalarText _ hscalar] at hne ⊢
    exact fun h => hne (Std.OrientedCmp.eq_symm h)
  have ha' := ((horder.mem a).1 ha).1
  have hb' := ((horder.mem b).1 hb).1
  simp only [length_cons, length_nil] at ha' hb'
  obtain rfl | rfl : a = 0 ∨ a = 1 := by omega
  · obtain rfl | rfl : b = 0 ∨ b = 1 := by omega
    · rfl
    · exact absurd htied hne
  · obtain rfl | rfl : b = 0 ∨ b = 1 := by omega
    · exact absurd htied hswap
    · rfl

theorem ranks_agree_strings : RanksAgree true scalarText rankSpec
    [rowOf (.string (.ofAscii (ascii "a") (by decide))), rowOf (.string (.ofAscii (ascii "b") (by decide)))] := by
  have hscalar := scalarRows_pair (v := .string (.ofAscii (ascii "a") (by decide))) (w := .string (.ofAscii (ascii "b") (by decide))) trivial trivial
  refine (ranks_agree true rankSpec scalarTexts_scalarText hscalar trivial (by simp)).1 (spelledAlike_pair ?_ hscalar)
  rintro _ rfl
  decide

/-- An integer and a float are one number and tie, and have different ranks. -/
theorem one_outranked : ¬ RanksAgree true scalarText rankSpec
    [rowOf (.number (.int 1 (by decide))), rowOf (.number (.float (.ofInt 1) (F64.isFinite_ofInt (by decide))))] := by
  have hscalar := scalarRows_pair (v := .number (.int 1 (by decide))) (w := .number (.float (.ofInt 1) (F64.isFinite_ofInt (by decide))))
    (by simp [IsScalar]) trivial
  generalize hrows : [rowOf (.number (.int 1 (by decide))), rowOf (.number (.float (.ofInt 1) (F64.isFinite_ofInt (by decide))))] = rows at *
  have hlen : rows.length = 2 := by rw [← hrows]; rfl
  intro hagree
  obtain ⟨hparts, houts⟩ := (@ranksAgree_iff _ _ rankSpec _ scalarTexts_scalarText hscalar trivial (by omega)).1 hagree
  have horder := isOrder_orderOf scalarTexts_scalarText hscalar hparts (show 0 < rows.length by omega)
  have hle := @length_orderOf_le scalarText rankSpec rows (partitionKey rankSpec rows 0)
  have hties := ((outsAgree_iff scalarTexts_scalarText hscalar (sorted_of_isOrder scalarTexts_scalarText hscalar horder) trivial
    (by omega)).2 (by omega) (houts 0 (by omega))).1 trivial
  have hmem : ∀ idx < rows.length, idx ∈ orderOf scalarText rankSpec rows (partitionKey rankSpec rows 0) :=
    fun idx hidx => (horder.mem idx).2 ⟨hidx, fun c hc => (not_mem_nil hc).elim⟩
  have htie : compareRows scalarText rankSpec.orderBy rows 0 1 = .eq := by
    rw [← hrows, compareRows_pair]
    show partialCmp (.ofInt 1) (.ofInt 1) = .eq
    unfold partialCmp
    cases (F64.ofInt 1).rank with
    | none => rfl
    | some k => exact compare_eq_iff_eq.2 rfl
  have hcells := hties 0 (hmem 0 (by omega)) 1 (hmem 1 (by omega)) htie ⟨"x", .ascending⟩ (mem_singleton_self _)
  rw [← hrows] at hcells
  cases hcells

end FerroDruid.Query
