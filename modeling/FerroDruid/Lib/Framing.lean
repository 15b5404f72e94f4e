import Mathlib.Data.List.Basic
import Mathlib.Logic.Function.Basic
/-!
# Self-delimiting codes

A code whose words end where they end, whatever comes after them. Words of such
a code can stand one after the other and are read off from the front.
-/

namespace FerroDruid.Lib

open List

variable {α β γ : Type*}

/-- Two texts that begin with words begin with one word and go on alike. -/
def SelfDelimiting (f : α → List β) : Prop := ∀ x y r s, f x ++ r = f y ++ s → x = y ∧ r = s

namespace SelfDelimiting

variable {f : α → List β} {g : γ → List β}

/-- As many words one after the other are read word by word. -/
theorem flatMap_inj (h : SelfDelimiting f) {xs ys : List α} (hlength : xs.length = ys.length) (heq : xs.flatMap f = ys.flatMap f) :
    xs = ys := by
  induction xs generalizing ys with
  | nil => exact (length_eq_zero_iff.1 hlength.symm).symm
  | cons x xs ih =>
    obtain ⟨y, ys, rfl⟩ := exists_cons_of_length_eq_add_one hlength.symm
    obtain ⟨rfl, hrest⟩ := h _ _ _ _ heq
    rw [ih (Nat.succ.inj hlength) hrest]

/-- Words that a mark ends which is in none of them. -/
theorem terminated (hf : Function.Injective f) {mark : β} (hmark : ∀ x, mark ∉ f x) : SelfDelimiting fun x => f x ++ [mark] := by
  have hsplit : ∀ xs ys r s : List β, mark ∉ xs → mark ∉ ys → xs ++ mark :: r = ys ++ mark :: s → xs = ys ∧ r = s := by
    intro xs
    induction xs with
    | nil =>
      intro ys r s _ hys heq
      cases ys with
      | nil => exact ⟨rfl, (List.cons.inj heq).2⟩
      | cons y ys => exact absurd (List.cons.inj heq).1 fun hy => hys (hy ▸ mem_cons_self)
    | cons x xs ih =>
      intro ys r s hxs hys heq
      cases ys with
      | nil => exact absurd (List.cons.inj heq).1 fun hx => hxs (hx ▸ mem_cons_self)
      | cons y ys =>
        obtain ⟨rfl, htail⟩ := List.cons.inj heq
        obtain ⟨rfl, rfl⟩ := ih ys r s (fun h => hxs (mem_cons_of_mem _ h)) (fun h => hys (mem_cons_of_mem _ h)) htail
        exact ⟨rfl, rfl⟩
  intro x y r s heq
  simp only [append_assoc, singleton_append] at heq
  obtain ⟨hxy, hrs⟩ := hsplit _ _ r s (hmark x) (hmark y) heq
  exact ⟨hf hxy, hrs⟩

/-- Text after its length. -/
theorem lengthPrefixed {length : ℕ → List β} (h : SelfDelimiting length) : SelfDelimiting fun text : List β => length text.length ++ text := by
  intro x y r s heq
  simp only [append_assoc] at heq
  obtain ⟨hlength, htexts⟩ := h _ _ _ _ heq
  exact append_inj htexts hlength

end SelfDelimiting

end FerroDruid.Lib
