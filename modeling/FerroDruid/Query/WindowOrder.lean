import FerroDruid.Lib.Ranks
import FerroDruid.Query.TopNPages
import FerroDruid.Query.Window
/-!
# The order of a window

On texts, numbers, booleans and nulls the comparison of rows is a total order up
to ties: texts come first, then numbers by their floats, booleans and nulls. The
text of a key tells its cell, so keys with one text compare equal.
-/

namespace FerroDruid.Query

open Lib List

/-! ## Scalars -/

/-- A cell that is no array or object, and no integer above 64 bits. -/
def IsScalar (cell : Option Json) : Prop :=
  match cell.getD .null with
  | .null | .bool _ | .string _ => True
  | .number (.int n _) => n < 2 ^ 63
  | .number (.float _ _) => True
  | .array _ | .object _ => False

/-- How the JSON text of a scalar starts. -/
structure ScalarTexts (text : Json → Bytes) : Prop where
  string : ∀ s, ∃ bs, text (.string s) = 0x22 :: bs
  number : ∀ n, ∃ b bs, text (.number n) = b :: bs ∧ 0x2D ≤ b ∧ b ≤ 0x39
  bool : ∀ b, ∃ c bs, text (.bool b) = c :: bs ∧ 0x66 ≤ c

/-- The place of a scalar: its type, and where it is among those of its type. -/
def scalarPlace (cell : Option Json) : ℕ × ℤ × Bytes :=
  match cell.getD .null with
  | .string s => (0, 0, s.bytes)
  | .number n => (1, n.toFloat.rank.getD 0, [])
  | .bool b => (2, if b then 1 else 0, [])
  | .null => (3, 0, [])
  | _ => (4, 0, [])

def compareScalars (a b : Option Json) : Ordering :=
  ((compare (scalarPlace a).1 (scalarPlace b).1).then (compare (scalarPlace a).2.1 (scalarPlace b).2.1)).then
    (compareText (scalarPlace a).2.2 (scalarPlace b).2.2)

theorem transCmp_on {α β : Type} (cmp : β → β → Ordering) [Std.TransCmp cmp] (f : α → β) : Std.TransCmp fun a b => cmp (f a) (f b) where
  eq_swap := Std.OrientedCmp.eq_swap
  isLE_trans := Std.TransCmp.isLE_trans

instance : Std.TransCmp compareScalars :=
  have _htype := transCmp_on (compare : ℕ → ℕ → Ordering) fun a => (scalarPlace a).1
  have _hvalue := transCmp_on (compare : ℤ → ℤ → Ordering) fun a => (scalarPlace a).2.1
  have _htext := transCmp_on compareText fun a => (scalarPlace a).2.2
  have _hfirst : Std.TransCmp fun a b => (compare (scalarPlace a).1 (scalarPlace b).1).then (compare (scalarPlace a).2.1 (scalarPlace b).2.1) :=
    inferInstanceAs (Std.TransCmp (compareLex (fun a b => compare (scalarPlace a).1 (scalarPlace b).1)
      (fun a b => compare (scalarPlace a).2.1 (scalarPlace b).2.1)))
  inferInstanceAs (Std.TransCmp (compareLex (fun a b => (compare (scalarPlace a).1 (scalarPlace b).1).then
    (compare (scalarPlace a).2.1 (scalarPlace b).2.1)) (fun a b => compareText (scalarPlace a).2.2 (scalarPlace b).2.2)))

theorem compareText_cons_lt {b c : UInt8} (h : b < c) (bs cs : Bytes) : compareText (b :: bs) (c :: cs) = .lt := by
  have hcmp : compareBytes b c = .lt := Nat.compare_eq_lt.2 h
  rw [compareText, List.compareLex_cons_cons, hcmp]
  rfl

theorem compareText_cons_gt {b c : UInt8} (h : c < b) (bs cs : Bytes) : compareText (b :: bs) (c :: cs) = .gt := by
  rw [compareText_swap, compareText_cons_lt h]
  rfl

theorem rank_toFloat (n : JsonNumber) : ∃ q, n.toFloat.rank = some q := by
  have h := n.isFinite_toFloat
  cases hx : n.toFloat with
  | finite a m => exact ⟨_, rfl⟩
  | infinite a => exact ⟨_, rfl⟩
  | nan =>
    rw [hx] at h
    cases h

/-- The comparison of the code is by place. -/
theorem compareJson_eq {text : Json → Bytes} (htext : ScalarTexts text) {a b : Option Json} (ha : IsScalar a) (hb : IsScalar b) :
    compareJson text a b = compareScalars a b := by
  unfold compareJson compareScalars scalarPlace
  unfold IsScalar at ha hb
  generalize a.getD .null = x at *
  generalize b.getD .null = y at *
  cases x with
  | null => cases y <;> first | rfl | exact hb.elim
  | bool b =>
    obtain ⟨c, cs, htb, hc⟩ := htext.bool b
    cases y with
    | null => rfl
    | bool b' => cases b <;> cases b' <;> rfl
    | number n =>
      obtain ⟨d, ds, htn, -, hd⟩ := htext.number n
      show compareText (text (.bool b)) (text (.number n)) = .gt
      rw [htb, htn]
      exact compareText_cons_gt (UInt8.lt_of_le_of_lt hd (UInt8.lt_of_lt_of_le (by decide) hc)) _ _
    | string s =>
      obtain ⟨ds, hts⟩ := htext.string s
      show compareText (text (.bool b)) (text (.string s)) = .gt
      rw [htb, hts]
      exact compareText_cons_gt (UInt8.lt_of_lt_of_le (by decide) hc) _ _
    | array | object => exact hb.elim
  | number n =>
    obtain ⟨c, cs, htn, hlow, hhigh⟩ := htext.number n
    cases y with
    | null => rfl
    | bool b' =>
      obtain ⟨d, ds, htb, hd⟩ := htext.bool b'
      refine Eq.trans (b := compareText (text (.number n)) (text (.bool b'))) (by cases n <;> rfl) ?_
      rw [htb, htn]
      exact compareText_cons_lt (UInt8.lt_of_le_of_lt hhigh (UInt8.lt_of_lt_of_le (by decide) hd)) _ _
    | number n' =>
      obtain ⟨q, hq⟩ := rank_toFloat n
      obtain ⟨q', hq'⟩ := rank_toFloat n'
      refine Eq.trans (b := partialCmp n.toFloat n'.toFloat) (by cases n <;> cases n' <;> rfl) ?_
      show partialCmp _ _ = ((compare 1 1).then (compare (n.toFloat.rank.getD 0) (n'.toFloat.rank.getD 0))).then (compareText [] [])
      rw [partialCmp, hq, hq', Option.getD_some, Option.getD_some]
      show compare q q' = ((compare 1 1).then (compare q q')).then (compareText [] [])
      cases compare q q' <;> rfl
    | string s =>
      obtain ⟨ds, hts⟩ := htext.string s
      refine Eq.trans (b := compareText (text (.number n)) (text (.string s))) (by cases n <;> rfl) ?_
      rw [htn, hts]
      exact compareText_cons_gt (UInt8.lt_of_lt_of_le (by decide) hlow) _ _
    | array | object => exact hb.elim
  | string s =>
    obtain ⟨cs, hts⟩ := htext.string s
    cases y with
    | null => rfl
    | bool b' =>
      obtain ⟨d, ds, htb, hd⟩ := htext.bool b'
      show compareText (text (.string s)) (text (.bool b')) = .lt
      rw [htb, hts]
      exact compareText_cons_lt (UInt8.lt_of_lt_of_le (by decide) hd) _ _
    | number n =>
      obtain ⟨d, ds, htn, hlow, -⟩ := htext.number n
      show compareText (text (.string s)) (text (.number n)) = .lt
      rw [htn, hts]
      exact compareText_cons_lt (UInt8.lt_of_lt_of_le (by decide) hlow) _ _
    | string s' => rfl
    | array | object => exact hb.elim
  | array | object => exact ha.elim

/-! ## Texts -/

/-- The text of a scalar tells it. -/
theorem stringify_eq_iff {a b : Option Json} (ha : IsScalar a) (hb : IsScalar b) : stringify a = stringify b ↔ a.getD .null = b.getD .null := by
  have hget : ∀ c : Option Json, stringify c = stringify (some (c.getD .null)) := fun c => by cases c <;> rfl
  rw [hget a, hget b]
  unfold IsScalar at ha hb
  generalize a.getD .null = x at *
  generalize b.getD .null = y at *
  have hint : ∀ (v : ℤ) range, v < 2 ^ 63 → stringify (some (.number (.int v range))) = .int (Int64.ofInt v) :=
    fun v range hv => by simp only [stringify, Json.asI64, if_pos hv]
  have hinj : ∀ v w : ℤ, (-2 ^ 63 ≤ v ∧ v < 2 ^ 64) → (-2 ^ 63 ≤ w ∧ w < 2 ^ 64) → v < 2 ^ 63 → w < 2 ^ 63 →
      Int64.ofInt v = Int64.ofInt w → v = w := by
    intro v w hv hw hv' hw' heq
    have h := congrArg Int64.toInt heq
    rwa [Int64.toInt_ofInt_of_le (by omega) (by omega), Int64.toInt_ofInt_of_le (by omega) (by omega)] at h
  cases x with
  | number n =>
    cases n with
    | int v range =>
      rw [hint v range ha]
      cases y with
      | number m =>
        cases m with
        | int w range' =>
          rw [hint w range' hb, KeyText.int.injEq, Json.number.injEq, JsonNumber.int.injEq]
          exact ⟨hinj v w range range' ha hb, congrArg _⟩
        | float y finite => simp [stringify, Json.asI64]
      | null | bool | string => simp [stringify]
      | array | object => exact hb.elim
    | float z finite =>
      cases y with
      | number m =>
        cases m with
        | int w range' =>
          rw [hint w range' hb]
          simp [stringify, Json.asI64]
        | float y finite => simp [stringify, Json.asI64, JsonNumber.toFloat]
      | null | bool | string => simp [stringify, Json.asI64]
      | array | object => exact hb.elim
  | null | bool | string =>
    cases y with
    | number m =>
      cases m with
      | int w range' =>
        rw [hint w range' hb]
        simp [stringify]
      | float y finite => simp [stringify, Json.asI64]
    | null | bool | string => simp [stringify]
    | array | object => exact hb.elim
  | array | object => exact ha.elim

/-! ## Rows -/

/-- Integers, floats, strings, booleans and nulls only. -/
def ScalarRows (rows : Rows) : Prop := ∀ idx column, IsScalar (rows.get idx column)

/-- One value, in whatever spelling. -/
def SameCell : Json → Json → Prop
  | .number m, .number n => m.units = n.units
  | a, b => a = b

theorem SameCell.refl (a : Json) : SameCell a a := by cases a <;> exact rfl

def SameKey (spec : WindowSpec) (rows : Rows) (a b : ℕ) : Prop := ∀ c ∈ spec.partitionBy, SameCell (rows.cell a c) (rows.cell b c)

theorem partitionKey_eq_iff {spec : WindowSpec} {rows : Rows} (hscalar : ScalarRows rows) (a b : ℕ) :
    partitionKey spec rows a = partitionKey spec rows b ↔ ∀ c ∈ spec.partitionBy, rows.cell a c = rows.cell b c := by
  unfold partitionKey
  rw [map_inj_left]
  exact forall₂_congr fun c _ => stringify_eq_iff (hscalar a c) (hscalar b c)

theorem orderKey_eq_iff {spec : WindowSpec} {rows : Rows} (hscalar : ScalarRows rows) (a b : ℕ) :
    orderKey spec rows a = orderKey spec rows b ↔ ∀ o ∈ spec.orderBy, rows.cell a o.column = rows.cell b o.column := by
  unfold orderKey
  rw [map_inj_left]
  exact forall₂_congr fun o _ => stringify_eq_iff (hscalar a o.column) (hscalar b o.column)

/-- The comparison of rows by the places of their cells. -/
def compareKeys (orderBy : List WindowOrderBy) (rows : Rows) : ℕ → ℕ → Ordering :=
  compareBy compareScalars (fun column rowIdx => rows.get rowIdx column) (orderBy.map fun o => (o.column, decide (o.direction = .ascending)))

instance (orderBy : List WindowOrderBy) (rows : Rows) : Std.TransCmp (compareKeys orderBy rows) := transCmp_compareBy ..

variable {text : Json → Bytes}

theorem compareRows_eq (htext : ScalarTexts text) (orderBy : List WindowOrderBy) {rows : Rows} (hscalar : ScalarRows rows) :
    compareRows text orderBy rows = compareKeys orderBy rows := by
  funext a b
  exact compareBy_congr_cmp fun column => compareJson_eq htext (hscalar a column) (hscalar b column)

/-- Rows with one key tie. -/
theorem compareKeys_of_orderKey {spec : WindowSpec} {rows : Rows} (hscalar : ScalarRows rows) {a b : ℕ}
    (h : orderKey spec rows a = orderKey spec rows b) : compareKeys spec.orderBy rows a b = .eq := by
  rw [orderKey_eq_iff hscalar] at h
  unfold compareKeys
  generalize spec.orderBy = orderBy at *
  induction orderBy with
  | nil => rfl
  | cons o orderBy ih =>
    obtain ⟨ho, hrest⟩ := forall_mem_cons.1 h
    have hplace : scalarPlace (rows.get a o.column) = scalarPlace (rows.get b o.column) := congrArg (fun v => scalarPlace (some v)) ho
    have hself : compareScalars (rows.get a o.column) (rows.get b o.column) = .eq := by
      unfold compareScalars
      rw [hplace]
      exact @Std.ReflCmp.compare_self _ compareScalars _ (rows.get b o.column)
    rw [map_cons, compareBy, hself, ih hrest]
    cases decide (o.direction = .ascending) <;> rfl

/-! ## The order of a partition -/

/-- What comes first: less, or a tie that came first. -/
def Precedes (text : Json → Bytes) (spec : WindowSpec) (rows : Rows) (a b : ℕ) : Prop :=
  compareRows text spec.orderBy rows a b = .lt ∨ (compareRows text spec.orderBy rows a b = .eq ∧ a < b)

/-- The rows with the partition key of a row, in order. -/
structure IsOrder (text : Json → Bytes) (spec : WindowSpec) (rows : Rows) (r : ℕ) (order : List ℕ) : Prop where
  mem : ∀ s, s ∈ order ↔ s < rows.length ∧ SameKey spec rows r s
  sorted : order.Pairwise (Precedes text spec rows)

section

variable {spec : WindowSpec} {rows : Rows} (htext : ScalarTexts text) (hscalar : ScalarRows rows)
include htext hscalar

theorem IsOrder.unique {r : ℕ} {order order' : List ℕ} (h : IsOrder text spec rows r order)
    (h' : IsOrder text spec rows r order') : order = order' := by
  have hlt : ∀ a b, Precedes text spec rows a b → ¬ Precedes text spec rows b a := by
    unfold Precedes
    rw [compareRows_eq htext _ hscalar]
    intro a b hab hba
    have hswap : compareKeys spec.orderBy rows a b = (compareKeys spec.orderBy rows b a).swap := Std.OrientedCmp.eq_swap
    rw [hswap] at hab
    rcases hba with hba | ⟨hba, hlt⟩ <;> rw [hba] at hab
    · rcases hab with hab | ⟨hab, -⟩ <;> cases hab
    · rcases hab with hab | ⟨-, hlt'⟩
      · cases hab
      · omega
  have hirrefl : Std.Irrefl (Precedes text spec rows) := ⟨fun a haa => hlt a a haa haa⟩
  have hanti : Std.Antisymm (Precedes text spec rows) := ⟨fun a b hab hba => absurd hba (hlt a b hab)⟩
  exact h.sorted.eq_of_mem_iff h'.sorted fun s => (h.mem s).trans (h'.mem s).symm

/-- The sort keeps what comes first among ties. -/
theorem sorted_sortBucket {indices : List ℕ} (h : indices.Pairwise (· < ·)) :
    (sortBucket text spec rows indices).Pairwise (Precedes text spec rows) := by
  unfold sortBucket Precedes
  rw [compareRows_eq htext _ hscalar]
  induction indices with
  | nil => exact List.Pairwise.nil
  | cons a indices ih =>
    obtain ⟨ha, hrest⟩ := pairwise_cons.1 h
    have hmem : ∀ b ∈ indices.insertionSort (fun a b => compareKeys spec.orderBy rows a b ≠ .gt), a < b :=
      fun b hb => ha b ((mem_insertionSort _).1 hb)
    rw [insertionSort_cons]
    specialize ih hrest
    generalize indices.insertionSort (fun a b => compareKeys spec.orderBy rows a b ≠ .gt) = sorted at *
    induction sorted with
    | nil => exact pairwise_singleton _ _
    | cons b sorted ihs =>
      obtain ⟨hb, hsorted⟩ := pairwise_cons.1 ih
      obtain ⟨hab, hmem'⟩ := forall_mem_cons.1 hmem
      have hprecedes : ∀ c, a < c → compareKeys spec.orderBy rows a c ≠ .gt →
          compareKeys spec.orderBy rows a c = .lt ∨ compareKeys spec.orderBy rows a c = .eq ∧ a < c := by
        intro c hac hle
        cases hcmp : compareKeys spec.orderBy rows a c with
        | lt => exact .inl rfl
        | eq => exact .inr ⟨rfl, hac⟩
        | gt => exact absurd hcmp hle
      rw [orderedInsert_cons]
      split_ifs with hle
      · refine pairwise_cons.2 ⟨fun c hc => ?_, ih⟩
        rcases mem_cons.1 hc with rfl | hc
        · exact hprecedes c hab hle
        · refine hprecedes c (hmem' c hc) (Ordering.isLE_iff_ne_gt.1 (Std.TransCmp.isLE_trans (Ordering.isLE_iff_ne_gt.2 hle) ?_))
          rcases hb c hc with hlt | ⟨heq, -⟩
          · rw [hlt]
            rfl
          · rw [heq]
            rfl
      · refine pairwise_cons.2 ⟨fun c hc => ?_, ihs hsorted hmem'⟩
        rcases (mem_orderedInsert _).1 hc with rfl | hc
        · exact .inl (Std.OrientedCmp.lt_of_gt (not_not.1 hle))
        · exact hb c hc

end

end FerroDruid.Query
