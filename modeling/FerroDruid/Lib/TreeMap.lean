import FerroDruid.Lib.Arrival
import FerroDruid.Lib.Numeral
/-!
# Maps in the order of their keys

A `BTreeMap` over texts is read in the byte order of its keys, so what is read
depends on its entries only.
-/

namespace FerroDruid.Lib

open List

/-- `str::cmp`. -/
def textBefore (a b : Bytes) : Bool := a.compareLex compareBytes b ≠ .gt

def sortText (keys : List Bytes) : List Bytes := keys.insertionSort fun a b => textBefore a b

instance : Std.TransCmp compareBytes where
  eq_swap {_ _} := @Std.OrientedCmp.eq_swap ℕ (fun a b => compare a b) _ _ _
  isLE_trans {_ _ _} hab hbc := @Std.TransCmp.isLE_trans ℕ (fun a b => compare a b) _ _ _ _ hab hbc

instance : Std.LawfulEqCmp compareBytes where
  compare_self {_} := Nat.compare_eq_eq.2 rfl
  eq_of_compare {_ _} h := UInt8.toNat_inj.1 (Nat.compare_eq_eq.1 h)

theorem textBefore_iff {a b : Bytes} : textBefore a b = true ↔ (a.compareLex compareBytes b).isLE = true := by
  unfold textBefore
  cases a.compareLex compareBytes b <;> simp

instance : Std.Total fun a b => textBefore a b = true where
  total a b := by
    have hswap := @Std.OrientedCmp.eq_swap _ (List.compareLex compareBytes) _ a b
    rw [textBefore_iff, textBefore_iff, hswap]
    cases b.compareLex compareBytes a <;> simp

instance : IsTrans Bytes fun a b => textBefore a b = true where
  trans a b c hab hbc := by
    rw [textBefore_iff] at *
    exact Std.TransCmp.isLE_trans hab hbc

instance : Std.Antisymm fun a b => textBefore a b = true where
  antisymm a b hab hba := by
    rw [textBefore_iff] at hab hba
    exact Std.LawfulEqCmp.eq_of_compare (Std.OrientedCmp.isLE_antisymm hab hba)

theorem perm_sortText (keys : List Bytes) : (sortText keys).Perm keys := perm_insertionSort _ _

theorem mem_sortText {keys : List Bytes} {k : Bytes} : k ∈ sortText keys ↔ k ∈ keys := (perm_sortText keys).mem_iff

/-- Sorted texts are known by their elements. -/
theorem sortText_congr {keys keys' : List Bytes} (h : keys.Perm keys') : sortText keys = sortText keys' :=
  List.Perm.eq_of_pairwise (fun _ _ _ _ => antisymm) (pairwise_insertionSort _ _) (pairwise_insertionSort _ _)
    ((perm_sortText keys).trans (h.trans (perm_sortText keys').symm))

/-! ## Reading a map -/

variable {α σ : Type}

/-- The entries of a map in the order of their keys. -/
def inKeyOrder (m : HashMap Bytes σ) : List (Bytes × σ) := (sortText m.keys).filterMap fun k => (m.lookup k).map fun v => (k, v)

/-- Groups are read in the order of their keys. -/
theorem inKeyOrder_groupFold (key : α → Bytes) (init : α → σ) (feed : σ → α → σ) (items : List α) :
    inKeyOrder (groupFold key init feed items ∅) = (sortText (firsts (items.map key))).filterMap fun k =>
      match items.filter (key · = k) with
      | [] => none
      | a :: group => some (k, (a :: group).foldl feed (init a)) := by
  unfold inKeyOrder
  rw [sortText_congr (keys_groupFold_perm key init feed items)]
  refine filterMap_congr fun k _ => ?_
  rw [lookup_groupFold_empty]
  cases items.filter (key · = k) <;> rfl

/-- What a map is read as depends on its entries only. -/
theorem inKeyOrder_congr {m m' : HashMap Bytes σ} (h : ∀ k, m.lookup k = m'.lookup k) : inKeyOrder m = inKeyOrder m' := by
  have hkeys : m.keys.Perm m'.keys :=
    (perm_ext_iff_of_nodup (AList.keys_nodup _) (AList.keys_nodup _)).2 fun k => by
      rw [← AList.mem_keys, ← AList.mem_keys, ← AList.lookup_isSome, ← AList.lookup_isSome, h]
  simp only [inKeyOrder, sortText_congr hkeys, h]

theorem filter_inKeyOrder (m : HashMap Bytes σ) (k : Bytes) :
    (inKeyOrder m).filter (fun entry => entry.1 = k) = (m.lookup k).toList.map fun v => (k, v) := by
  have hentries : ∀ ks : List Bytes, ks.Nodup →
      (ks.filterMap fun k' => (m.lookup k').map fun v => (k', v)).filter (fun entry => entry.1 = k) =
        if k ∈ ks then (m.lookup k).toList.map fun v => (k, v) else [] := by
    intro ks
    induction ks with
    | nil => intro _; rfl
    | cons k' ks ih =>
      intro hnodup
      obtain ⟨hk', hnodup⟩ := nodup_cons.1 hnodup
      specialize ih hnodup
      by_cases hk : k' = k
      · subst hk
        rw [if_neg hk'] at ih
        cases hv : m.lookup k' <;> simp [hv, ih]
      · cases hv : m.lookup k' <;> simp [hv, hk, Ne.symm hk, ih]
  rw [inKeyOrder, hentries _ ((perm_sortText m.keys).nodup_iff.2 (AList.keys_nodup m))]
  split_ifs with hk
  · rfl
  · have hnone : m.lookup k = none := AList.lookup_eq_none.2 fun hmem => hk (mem_sortText.2 (AList.mem_keys.1 hmem))
    rw [hnone]
    rfl

/-! ## Grouping in two phases -/

section

variable {β : Type} {P : α → Prop} {key : α → Bytes} {init : α → σ} {feed : σ → α → σ}
  {key' : β → Bytes} {init' : β → σ} {feed' : σ → β → σ} {out : σ → β}

/-- The groups of every part, each put out as one item. -/
def partialsOf (key : α → Bytes) (init : α → σ) (feed : σ → α → σ) (out : σ → β) (parts : List (List α)) : List β :=
  parts.flatMap fun part => (inKeyOrder (groupFold key init feed part ∅)).map fun group => out group.2

/-- The item of a block of one key, if there is any. -/
def blockOut (init : α → σ) (feed : σ → α → σ) (out : σ → β) (block : List α) : Option β :=
  match block with
  | [] => none
  | a :: group => some (out ((a :: group).foldl feed (init a)))

theorem filter_partialsOf (hkey : ∀ a, P a → ∀ group, key' (out ((a :: group).foldl feed (init a))) = key a) {parts : List (List α)}
    (hP : ∀ part ∈ parts, ∀ a ∈ part, P a) (k : Bytes) :
    (partialsOf key init feed out parts).filter (fun p => key' p = k) =
      (parts.map (List.filter (fun a => key a = k))).filterMap (blockOut init feed out) := by
  rw [partialsOf, filter_flatMap, filterMap_map, filterMap_eq_flatMap_toList]
  refine flatMap_congr fun part hpart => ?_
  have hread : ∀ entry ∈ inKeyOrder (groupFold key init feed part ∅), key' (out entry.2) = entry.1 := by
    rintro ⟨k', v⟩ hentry
    obtain ⟨k'', -, hv⟩ := mem_filterMap.1 hentry
    obtain ⟨v', hlookup, heq⟩ := Option.map_eq_some_iff.1 hv
    cases heq
    rw [lookup_groupFold_empty] at hlookup
    cases hgroup : part.filter (key · = k') with
    | nil => rw [hgroup] at hlookup; cases hlookup
    | cons a group =>
      rw [hgroup] at hlookup
      have ha : a ∈ part.filter (key · = k') := hgroup ▸ mem_cons_self ..
      rw [← Option.some.inj hlookup, hkey a (hP part hpart a (mem_filter.1 ha).1)]
      exact of_decide_eq_true (mem_filter.1 ha).2
  rw [filter_map, filter_congr (q := fun entry => decide (entry.1 = k)) fun entry hentry => by
    simp only [Function.comp_apply, hread entry hentry], filter_inKeyOrder, lookup_groupFold_empty]
  cases hgroup : part.filter (key · = k) <;> simp [blockOut, hgroup]

/-- A fold over the items of blocks is the fold over what is in the blocks. -/
theorem foldl_blockOut (hstep : ∀ a b, P a → P b → ∀ xs ys, feed' ((a :: xs).foldl feed (init a)) (out ((b :: ys).foldl feed (init b))) =
      (a :: xs ++ b :: ys).foldl feed (init a)) {blocks : List (List α)} (hP : ∀ block ∈ blocks, ∀ a ∈ block, P a) {a : α} (ha : P a)
    (xs : List α) :
    (blocks.filterMap (blockOut init feed out)).foldl feed' ((a :: xs).foldl feed (init a)) = (a :: xs ++ blocks.flatten).foldl feed (init a) := by
  induction blocks generalizing xs with
  | nil => simp
  | cons block blocks ih =>
    obtain ⟨hblock, hblocks⟩ := forall_mem_cons.1 hP
    cases block with
    | nil => exact ih hblocks xs
    | cons b ys =>
      have hrest := ih hblocks (xs ++ b :: ys)
      rw [flatten_cons, ← cons_append, append_assoc] at *
      rw [← hrest, ← hstep a b ha (hblock b (mem_cons_self ..)) xs ys]
      rfl

/-- Groups of parts merged are the groups of the whole, when a part's group put out
and merged does what feeding its items does. -/
theorem groupFold_partialsOf (hkey : ∀ a, P a → ∀ group, key' (out ((a :: group).foldl feed (init a))) = key a)
    (hstart : ∀ a, P a → ∀ group, feed' (init' (out ((a :: group).foldl feed (init a)))) (out ((a :: group).foldl feed (init a))) =
      (a :: group).foldl feed (init a))
    (hstep : ∀ a b, P a → P b → ∀ xs ys, feed' ((a :: xs).foldl feed (init a)) (out ((b :: ys).foldl feed (init b))) =
      (a :: xs ++ b :: ys).foldl feed (init a))
    {parts : List (List α)} (hP : ∀ part ∈ parts, ∀ a ∈ part, P a) :
    inKeyOrder (groupFold key' init' feed' (partialsOf key init feed out parts) ∅) = inKeyOrder (groupFold key init feed parts.flatten ∅) := by
  refine inKeyOrder_congr fun k => ?_
  rw [lookup_groupFold_empty, lookup_groupFold_empty, filter_partialsOf hkey hP, filter_flatten]
  have hblocks : ∀ block ∈ parts.map (List.filter (fun a => key a = k)), ∀ a ∈ block, P a := by
    intro block hblock a ha
    obtain ⟨part, hpart, rfl⟩ := mem_map.1 hblock
    exact hP part hpart a (mem_filter.1 ha).1
  generalize parts.map (List.filter (fun a => key a = k)) = blocks at hblocks
  induction blocks with
  | nil => rfl
  | cons block blocks ih =>
    obtain ⟨hblock, hrest⟩ := forall_mem_cons.1 hblocks
    cases block with
    | nil => exact ih hrest
    | cons a group =>
      have ha := hblock a (mem_cons_self ..)
      have hfold := foldl_blockOut hstep hrest ha group
      rw [← hstart a ha group] at hfold
      exact congrArg some hfold

end

end FerroDruid.Lib
