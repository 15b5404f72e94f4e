import Mathlib.Data.List.Basic
import Mathlib.Tactic.Common
/-!
# Patterns with wildcards

The texts a pattern stands for, over any alphabet. A pattern is a list of items,
and an item stands for any text, for one symbol, or for itself.
-/

namespace FerroDruid.Lib

open List

variable {α : Type}

inductive WildItem (α : Type) where
  | many
  | one
  | char (a : α)
  deriving DecidableEq

/-- The whole text is of the pattern. -/
inductive WildMatch : List (WildItem α) → List α → Prop
  | nil : WildMatch [] []
  | many (u : List α) {items : List (WildItem α)} {v : List α} : WildMatch items v → WildMatch (.many :: items) (u ++ v)
  | one (a : α) {items : List (WildItem α)} {v : List α} : WildMatch items v → WildMatch (.one :: items) (a :: v)
  | char (a : α) {items : List (WildItem α)} {v : List α} : WildMatch items v → WildMatch (.char a :: items) (a :: v)

namespace WildMatch

variable {items seg : List (WildItem α)} {u v : List α} {a b : α}

/-! ## The first item -/

theorem nil_iff : WildMatch [] u ↔ u = [] :=
  ⟨fun h => by cases h; rfl, fun h => h ▸ .nil⟩

theorem many_iff : WildMatch (.many :: items) u ↔ ∃ k, WildMatch items (u.drop k) := by
  constructor
  · intro h
    cases h with
    | many w h => exact ⟨w.length, by rwa [drop_left]⟩
  · rintro ⟨k, h⟩
    rw [← take_append_drop k u]
    exact .many _ h

theorem one_cons_iff : WildMatch (.one :: items) (a :: u) ↔ WildMatch items u :=
  ⟨fun h => by cases h; assumption, .one a⟩

theorem char_cons_iff : WildMatch (.char b :: items) (a :: u) ↔ b = a ∧ WildMatch items u := by
  constructor
  · intro h
    cases h with
    | char _ h => exact ⟨rfl, h⟩
  · rintro ⟨rfl, h⟩
    exact .char b h

/-- An item for any text takes more of a text. -/
theorem many_of_drop {k : ℕ} (h : WildMatch (.many :: items) (u.drop k)) : WildMatch (.many :: items) u := by
  obtain ⟨n, h⟩ := many_iff.1 h
  rw [drop_drop] at h
  exact many_iff.2 ⟨_, h⟩

/-! ## Parts of a pattern -/

/-- The empty text is of the patterns that ask for no symbol. -/
theorem empty_iff : WildMatch items [] ↔ ∀ item ∈ items, item = .many := by
  induction items with
  | nil => simp [nil_iff]
  | cons item items ih =>
    cases item with
    | many => rw [many_iff, forall_mem_cons, ← ih]; simp
    | one => exact ⟨nofun, fun h => absurd (h _ (mem_cons_self ..)) nofun⟩
    | char a => exact ⟨nofun, fun h => absurd (h _ (mem_cons_self ..)) nofun⟩

/-- Without an item for any text, items take as many symbols. -/
theorem of_segment (hseg : .many ∉ seg) (h : WildMatch (seg ++ items) u) : WildMatch items (u.drop seg.length) := by
  induction seg generalizing u with
  | nil => exact h
  | cons item seg ih =>
    rw [mem_cons, not_or] at hseg
    cases item with
    | many => exact absurd rfl hseg.1
    | one =>
      cases h with
      | one _ h => exact ih hseg.2 h
    | char a =>
      cases h with
      | char _ h => exact ih hseg.2 h

/-- A text of two patterns in a row is a text of each in a row. -/
theorem append_iff : WildMatch (seg ++ items) u ↔ ∃ v w, u = v ++ w ∧ WildMatch seg v ∧ WildMatch items w := by
  induction seg generalizing u with
  | nil => simp [nil_iff]
  | cons item seg ih =>
    constructor
    · intro h
      cases h with
      | many x h =>
        obtain ⟨v, w, rfl, hv, hw⟩ := ih.1 h
        exact ⟨x ++ v, w, (append_assoc ..).symm, .many x hv, hw⟩
      | one a h =>
        obtain ⟨v, w, rfl, hv, hw⟩ := ih.1 h
        exact ⟨a :: v, w, rfl, .one a hv, hw⟩
      | char a h =>
        obtain ⟨v, w, rfl, hv, hw⟩ := ih.1 h
        exact ⟨a :: v, w, rfl, .char a hv, hw⟩
    · rintro ⟨v, w, rfl, hv, hw⟩
      cases hv with
      | many x hv => exact append_assoc x _ w ▸ .many x (ih.2 ⟨_, w, rfl, hv, hw⟩)
      | one a hv => exact .one a (ih.2 ⟨_, w, rfl, hv, hw⟩)
      | char a hv => exact .char a (ih.2 ⟨_, w, rfl, hv, hw⟩)

theorem length_eq (hseg : .many ∉ seg) (h : WildMatch seg u) : u.length = seg.length := by
  induction h with
  | nil => rfl
  | many x _ _ => exact absurd (mem_cons_self ..) hseg
  | one a _ ih => exact congrArg (· + 1) (ih fun hmem => hseg (mem_cons_of_mem _ hmem))
  | char a _ ih => exact congrArg (· + 1) (ih fun hmem => hseg (mem_cons_of_mem _ hmem))

/-- Without an item for any text, the items and the symbols pair up. -/
theorem char_eq {i : Nat} (hseg : .many ∉ seg) (h : WildMatch seg u) (hitem : seg[i]? = some (.char a)) (hu : u[i]? = some b) : a = b := by
  induction h generalizing i with
  | nil => cases hu
  | many x _ _ => exact absurd (mem_cons_self ..) hseg
  | one c _ ih =>
    cases i with
    | zero => cases hitem
    | succ i => exact ih (fun hmem => hseg (mem_cons_of_mem _ hmem)) hitem hu
  | char c _ ih =>
    cases i with
    | zero => cases hitem; cases hu; rfl
    | succ i => exact ih (fun hmem => hseg (mem_cons_of_mem _ hmem)) hitem hu

/-- A text holds the symbols that the pattern writes. -/
theorem count_le [DecidableEq α] [BEq α] [LawfulBEq α] (a : α) (h : WildMatch items u) : items.count (.char a) ≤ u.count a := by
  induction h with
  | nil => exact Nat.le_refl _
  | many x _ ih =>
    rw [count_cons_of_ne (nofun : WildItem.many ≠ .char a), count_append]
    exact Nat.le_trans ih (Nat.le_add_left _ _)
  | one b _ ih =>
    exact Nat.le_trans ih (count_le_count_cons ..)
  | char b _ ih =>
    simp only [count_cons, beq_iff_eq, WildItem.char.injEq]
    exact Nat.add_le_add_right ih _

/-- There is an item for any text, and the text ends as what follows the last one asks. -/
def EndsLike (items : List (WildItem α)) (u : List α) : Prop :=
  ∃ front back, items = front ++ .many :: back ∧ .many ∉ back ∧ ∃ w, w <:+ u ∧ WildMatch back w

/-- One more symbol stays in the pattern if the end still does. -/
theorem concat_iff (h : WildMatch items u) : WildMatch items (u ++ [a]) ↔ EndsLike items (u ++ [a]) := by
  constructor
  · intro hmore
    by_cases hmany : .many ∈ items
    · obtain ⟨back, front, hsplit, hback⟩ := eq_append_cons_of_mem (mem_reverse.2 hmany)
      have hitems : items = front.reverse ++ .many :: back.reverse := by
        rw [← reverse_reverse items, hsplit, reverse_append, reverse_cons, append_assoc]
        rfl
      rw [hitems] at hmore
      obtain ⟨v, w, hu, -, hw⟩ := append_iff.1 hmore
      cases hw with
      | many x hw => exact ⟨_, _, hitems, fun hmem => hback (mem_reverse.1 hmem), _, ⟨v ++ x, by rw [hu, append_assoc]⟩, hw⟩
    · have hless := length_eq hmany h
      have hmore := length_eq hmany hmore
      rw [length_append, hless] at hmore
      exact absurd hmore (Nat.succ_ne_self _)
  · rintro ⟨front, back, rfl, hback, z, ⟨t, ht⟩, hz⟩
    obtain ⟨v, w, rfl, hv, hw⟩ := append_iff.1 h
    cases hw with
    | @many x _ y hy =>
      -- the parts after the last item for any text are as long
      have hlen : z.length = y.length := (length_eq hback hz).trans (length_eq hback hy).symm
      rw [← ht]
      rw [append_assoc] at ht
      rcases append_eq_append_iff.1 ht with ⟨r, hr, hr'⟩ | ⟨r, rfl, -⟩
      · have htotal := congrArg List.length hr'
        have hfirst : r = [] := by
          simp only [length_append, length_singleton] at htotal
          exact length_eq_zero_iff.1 (by omega)
        rw [hfirst, append_nil] at hr
        exact append_iff.2 ⟨t, z, rfl, hr ▸ hv, by simpa using WildMatch.many [] hz⟩
      · rw [append_assoc]
        exact append_iff.2 ⟨v, r ++ z, rfl, hv, .many r hz⟩

/-- As many symbols as are asked for, whatever they are. -/
theorem ones_append (u : List α) (h : WildMatch items v) : WildMatch (List.replicate u.length WildItem.one ++ items) (u ++ v) := by
  induction u with
  | nil => exact h
  | cons a u ih => exact .one a ih

end WildMatch

end FerroDruid.Lib
