import Mathlib.Data.List.Induction
import Mathlib.Data.List.Perm.Basic
import Mathlib.Data.Multiset.Lattice
/-!
# Gathering partial results

A list split into parts, a result of each part, and the results merged in pairs
in any order and grouping. An operation that is associative and commutative
gives the result of the whole list, whatever the split.
-/

namespace FerroDruid.Lib

open List

/-- Which parts are merged with which, and in what order. -/
inductive MergeTree (α : Type) where
  | leaf (part : α)
  | node (left right : MergeTree α)

namespace MergeTree

variable {α β : Type}

def eval (result : α → β) (merge : β → β → β) : MergeTree α → β
  | leaf part => result part
  | node left right => merge (left.eval result merge) (right.eval result merge)

/-- The parts, from left to right. -/
def parts : MergeTree α → List α
  | leaf part => [part]
  | node left right => left.parts ++ right.parts

/-- The tree and the trees under it: one for each result on the way. -/
def subtrees : MergeTree α → List (MergeTree α)
  | leaf part => [leaf part]
  | node left right => node left right :: (left.subtrees ++ right.subtrees)

theorem mem_subtrees_self (t : MergeTree α) : t ∈ t.subtrees := by
  cases t <;> simp [subtrees]

/-- What holds of the parts' results and is kept by a merge holds of the tree's
result. -/
theorem eval_induct {result : α → β} {merge : β → β → β} {R : β → List α → Prop} (t : MergeTree α)
    (hleaf : ∀ part ∈ t.parts, R (result part) [part])
    (hnode : ∀ x y ps qs, R x ps → R y qs → R (merge x y) (ps ++ qs)) : R (t.eval result merge) t.parts := by
  induction t with
  | leaf part => exact hleaf part (mem_singleton_self part)
  | node left right ihl ihr =>
    simp only [parts, forall_mem_append] at hleaf
    exact hnode _ _ _ _ (ihl hleaf.1) (ihr hleaf.2)

/-- What a merge joins, in a semilattice, is joined over the parts. -/
theorem eval_sup {γ : Type} [SemilatticeSup γ] [OrderBot γ] {result : α → β} {merge : β → β → β} (m : β → γ)
    (hmerge : ∀ x y, m (merge x y) = m x ⊔ m y) (t : MergeTree α) :
    m (t.eval result merge) = ((t.parts : Multiset α).map fun part => m (result part)).sup := by
  induction t with
  | leaf part => simp [eval, parts]
  | node left right ihl ihr => rw [eval, hmerge, ihl, ihr, parts, ← Multiset.coe_add, Multiset.map_add, Multiset.sup_add]

/-- Each part is merged into those before it. -/
def chain (part : α) (rest : List α) : MergeTree α := rest.foldl (fun t p => .node t (.leaf p)) (.leaf part)

theorem chain_concat (part : α) (rest : List α) (last : α) : chain part (rest ++ [last]) = .node (chain part rest) (.leaf last) := by
  rw [chain, foldl_append]
  rfl

theorem eval_chain (result : α → β) (merge : β → β → β) (part : α) (rest : List α) :
    (chain part rest).eval result merge = rest.foldl (fun v p => merge v (result p)) (result part) := by
  induction rest using List.reverseRecOn with
  | nil => rfl
  | append_singleton rest last ih =>
    rw [chain_concat, eval, ih, foldl_append]
    rfl

theorem parts_chain (part : α) (rest : List α) : (chain part rest).parts = part :: rest := by
  induction rest using List.reverseRecOn with
  | nil => rfl
  | append_singleton rest last ih =>
    rw [chain_concat, parts, ih]
    rfl

theorem mem_subtrees_chain {part : α} {rest : List α} {t : MergeTree α} (h : t ∈ (chain part rest).subtrees) :
    (∃ p ∈ part :: rest, t.parts = [p]) ∨ t.parts <+: part :: rest := by
  induction rest using List.reverseRecOn with
  | nil =>
    obtain rfl : t = leaf part := by simpa [chain, subtrees] using h
    exact .inl ⟨part, mem_cons_self .., rfl⟩
  | append_singleton rest last ih =>
    rw [chain_concat, subtrees, mem_cons, mem_append] at h
    rcases h with rfl | h | h
    · right
      rw [parts, parts_chain]
      exact prefix_refl _
    · rcases ih h with ⟨p, hp, hparts⟩ | hpre
      · exact .inl ⟨p, mem_append_left [last] hp, hparts⟩
      · exact .inr (List.IsPrefix.trans hpre (prefix_append _ [last]))
    · obtain rfl : t = leaf last := by simpa [subtrees] using h
      exact .inl ⟨last, by simp, rfl⟩

end MergeTree

/-! ## Parts -/

/-- A list dealt out by a number below `n`. -/
theorem flatten_buckets_perm {α : Type} (f : α → ℕ) {n : ℕ} {xs : List α} (h : ∀ x ∈ xs, f x < n) :
    ((List.range n).map fun p => xs.filter (f · = p)).flatten.Perm xs := by
  have hbelow : ∀ m, ((List.range m).map fun p => xs.filter (f · = p)).flatten.Perm (xs.filter (f · < m)) := by
    intro m
    induction m with
    | zero => simp
    | succ m ih =>
      rw [range_succ, map_append, flatten_append]
      refine (ih.append_right _).trans ?_
      have hsplit := filter_append_perm (f · < m) (xs.filter (f · < m + 1))
      have hlow : (xs.filter (f · < m + 1)).filter (f · < m) = xs.filter (f · < m) := by
        rw [filter_filter]
        refine filter_congr fun x _ => ?_
        simp only [← Bool.decide_and, decide_eq_decide]
        omega
      have hlast : (xs.filter (f · < m + 1)).filter (fun x => !decide (f x < m)) = xs.filter (f · = m) := by
        rw [filter_filter]
        refine filter_congr fun x _ => ?_
        simp only [← decide_not, ← Bool.decide_and, decide_eq_decide]
        omega
      rw [hlow, hlast] at hsplit
      simpa using hsplit
  have hall := hbelow n
  rwa [filter_eq_self.2 fun x hx => decide_eq_true (h x hx)] at hall

/-! ## Totals -/

variable {α β : Type} {op : α → α → α}

/-- All values combined; nothing when there are none. -/
def total (op : α → α → α) (values : List α) : Option α :=
  values.foldl (fun acc v => Option.merge op acc (some v)) none

section

variable [Std.Associative op]

theorem merge_assoc (x y z : Option α) : Option.merge op (Option.merge op x y) z = Option.merge op x (Option.merge op y z) := by
  have hassoc : ∀ a b c, op (op a b) c = op a (op b c) := Std.Associative.assoc
  cases x <;> cases y <;> cases z <;> simp [hassoc]

theorem foldl_merge (values : List α) (acc : Option α) :
    values.foldl (fun acc v => Option.merge op acc (some v)) acc = Option.merge op acc (total op values) := by
  induction values generalizing acc with
  | nil => simp [total]
  | cons v values ih =>
    rw [total, foldl_cons, foldl_cons, ih, ih, merge_assoc, Option.merge_none_left]

theorem total_append (xs ys : List α) : total op (xs ++ ys) = Option.merge op (total op xs) (total op ys) := by
  rw [total, foldl_append, foldl_merge ys]
  rfl

theorem total_perm [Std.Commutative op] {xs ys : List α} (h : xs.Perm ys) : total op xs = total op ys := by
  refine h.foldl_eq' (fun x _ y _ acc => ?_) none
  have hcomm : op x y = op y x := Std.Commutative.comm x y
  rw [merge_assoc, merge_assoc, Option.merge_some_some, Option.merge_some_some, hcomm]

end

theorem total_eq_none_iff {values : List α} : total op values = none ↔ values = [] := by
  induction values using List.reverseRecOn with
  | nil => simp [total]
  | append_singleton values v ih => simp [total]

/-! ## Missing values -/

section

variable {z : α}

/-- Values of which some are missing, with one value in their place: it counts once. -/
theorem total_map_getD [DecidableEq α] [Std.Associative op] [Std.Commutative op] (hidem : op z z = z) (values : List (Option α)) :
    total op (values.map (·.getD z)) =
      if none ∈ values then Option.merge op (some z) (total op (values.filterMap id)) else total op (values.filterMap id) := by
  have hcons : ∀ (v : α) (vs : List α), total op (v :: vs) = Option.merge op (some v) (total op vs) := fun v vs => total_append [v] vs
  induction values with
  | nil => rfl
  | cons value values ih =>
    rw [map_cons, hcons, ih]
    cases value with
    | none =>
      rw [if_pos (mem_cons_self ..), filterMap_cons_none rfl, Option.getD_none]
      split_ifs
      · rw [← merge_assoc, Option.merge_some_some, hidem]
      · rfl
    | some v =>
      have hcomm : op v z = op z v := Std.Commutative.comm v z
      rw [@List.filterMap_cons_some _ _ id _ values v rfl, hcons, Option.getD_some]
      simp only [mem_cons, reduceCtorEq, false_or]
      split_ifs
      · rw [← merge_assoc, ← merge_assoc, Option.merge_some_some, Option.merge_some_some, hcomm]
      · rfl

/-- A value more makes no difference exactly if a single value absorbs it. -/
theorem merge_total_eq_iff [Std.Associative op] (habsorb : ∀ a b, op z (op a b) = op a b ↔ op z a = a ∨ op z b = b) (values : List α) :
    Option.merge op (some z) (total op values) = total op values ↔ ∃ v ∈ values, op z v = v := by
  induction values with
  | nil => simp [total]
  | cons v values ih =>
    have hcons : total op (v :: values) = Option.merge op (some v) (total op values) := total_append [v] values
    rw [hcons]
    cases htotal : total op values with
    | none =>
      obtain rfl := total_eq_none_iff.1 htotal
      simp
    | some t =>
      rw [htotal] at ih
      simp only [Option.merge_some_some, Option.some.injEq] at ih ⊢
      rw [habsorb, ih]
      simp

end

end FerroDruid.Lib
