import Mathlib.Data.Fintype.EquivFin
import Mathlib.Data.List.Nodup
import Mathlib.Logic.Relation
import Mathlib.Order.WellFounded
/-!
# Orders that respect a precedence

Some elements have to come before others. Whoever takes elements one at a time, each
after all that have to come before it, until none is left that could be taken, has
taken all of them exactly if no element has to come before itself.
-/

namespace FerroDruid.Lib

open Relation List

variable {α : Type*} {before : α → α → Prop}

/-- Every element comes after all that have to come before it. -/
def Respects (before : α → α → Prop) (order : List α) : Prop := ∀ xs b ys, order = xs ++ b :: ys → ∀ a, before a b → a ∈ xs

theorem respects_nil : Respects before [] := by
  intro xs b ys h
  simp at h

variable {order : List α}

theorem Respects.concat (h : Respects before order) {b : α} (hb : ∀ a, before a b → a ∈ order) : Respects before (order ++ [b]) := by
  intro xs c ys heq a hac
  rcases append_eq_append_iff.1 heq with ⟨as, rfl, has⟩ | ⟨cs, rfl, hcs⟩
  · -- the element is the last one
    rcases as with _ | ⟨d, as⟩
    · obtain ⟨rfl, -⟩ := List.cons.inj has
      simpa using hb a hac
    · simp at has
  · rcases cs with _ | ⟨d, cs⟩
    · obtain ⟨rfl, -⟩ := List.cons.inj hcs
      simpa using hb a hac
    · obtain ⟨rfl, -⟩ := List.cons.inj hcs
      exact h xs c cs rfl a hac

theorem Respects.mem (h : Respects before order) {a b : α} (hab : before a b) (hb : b ∈ order) : a ∈ order := by
  obtain ⟨xs, ys, rfl⟩ := append_of_mem hb
  exact mem_append_left _ (h xs b ys rfl a hab)

variable [DecidableEq α]

theorem Respects.idxOf_lt (h : Respects before order) {a b : α} (hab : TransGen before a b) (hb : b ∈ order) :
    a ∈ order ∧ order.idxOf a < order.idxOf b := by
  have hstep : ∀ {a b : α}, before a b → b ∈ order → order.idxOf a < order.idxOf b := by
    intro a b hab hb
    obtain ⟨xs, ys, rfl, hxs⟩ := eq_append_cons_of_mem hb
    have ha := h xs b ys rfl a hab
    rw [idxOf_append_of_mem ha, idxOf_append_of_notMem hxs, idxOf_cons_self]
    exact idxOf_lt_length_of_mem ha
  induction hab using TransGen.head_induction_on with
  | single hab => exact ⟨h.mem hab hb, hstep hab hb⟩
  | head hac _ ih => exact ⟨h.mem hac ih.1, (hstep hac ih.1).trans ih.2⟩

/-- An order that cannot be continued has everything exactly if there is no cycle. -/
theorem Respects.complete_iff {nodes : List α} (h : Respects before order) (hnodes : ∀ a b, before a b → b ∈ nodes → a ∈ nodes)
    (hstuck : ∀ b ∈ nodes, b ∉ order → ∃ a, before a b ∧ a ∉ order) : nodes ⊆ order ↔ ∀ a ∈ nodes, ¬ TransGen before a a := by
  constructor
  · intro hall a ha hcycle
    exact lt_irrefl _ (h.idxOf_lt hcycle (hall ha)).2
  · intro hacyclic b hb
    by_contra hout
    -- what is left out has no least element
    let left := {a : α // a ∈ nodes ∧ a ∉ order}
    let less : left → left → Prop := fun a b => TransGen before a.1 b.1
    have hfinite : Finite left := by
      apply Finite.of_injective (fun a : left => (⟨a.1, mem_toFinset.2 a.2.1⟩ : nodes.toFinset))
      intro a b hab
      apply Subtype.ext
      simpa only [Subtype.mk.injEq] using hab
    have hirrefl : Std.Irrefl less := ⟨fun a => hacyclic a.1 a.2.1⟩
    obtain ⟨⟨c, hc, hcout⟩, -, hleast⟩ := (Finite.wellFounded_of_trans_of_irrefl less).has_min Set.univ ⟨⟨b, hb, hout⟩, trivial⟩
    obtain ⟨a, hac, haout⟩ := hstuck c hc hcout
    exact hleast ⟨a, hnodes a c hac hc, haout⟩ trivial (TransGen.single hac)

end FerroDruid.Lib
