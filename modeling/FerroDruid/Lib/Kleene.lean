import Mathlib.Logic.Basic
/-!
# Three truth values

Formulas in the logic of SQL, where a comparison with a null is unknown, and their
evaluation with two values. The two-valued result is right about the truth of a
formula, or about its falsity, or about both, depending on the atoms.
-/

namespace FerroDruid.Lib

inductive Truth where
  | yes
  | unknown
  | no
  deriving DecidableEq

namespace Truth

def ofBool (b : Bool) : Truth := if b then yes else no

def not : Truth → Truth
  | yes => no
  | unknown => unknown
  | no => yes

def and : Truth → Truth → Truth
  | no, _ | _, no => no
  | yes, yes => yes
  | _, _ => unknown

def or : Truth → Truth → Truth
  | yes, _ | _, yes => yes
  | no, no => no
  | _, _ => unknown

@[simp] theorem ofBool_eq_yes {b : Bool} : ofBool b = yes ↔ b = true := by cases b <;> simp [ofBool]

@[simp] theorem ofBool_eq_no {b : Bool} : ofBool b = no ↔ b = false := by cases b <;> simp [ofBool]

variable {t : Truth}

@[simp] theorem not_eq_yes : t.not = yes ↔ t = no := by cases t <;> simp [not]

@[simp] theorem not_eq_no : t.not = no ↔ t = yes := by cases t <;> simp [not]

variable {s : Truth}

@[simp] theorem and_eq_yes : s.and t = yes ↔ s = yes ∧ t = yes := by cases s <;> cases t <;> simp [and]

@[simp] theorem and_eq_no : s.and t = no ↔ s = no ∨ t = no := by cases s <;> cases t <;> simp [and]

@[simp] theorem or_eq_yes : s.or t = yes ↔ s = yes ∨ t = yes := by cases s <;> cases t <;> simp [or]

@[simp] theorem or_eq_no : s.or t = no ↔ s = no ∧ t = no := by cases s <;> cases t <;> simp [or]

end Truth

inductive Formula (α : Type) where
  | atom (a : α)
  | never
  | not (f : Formula α)
  | and (f g : Formula α)
  | or (f g : Formula α)

/-- A conjunction is right about what it stands for: both sides are, or a side is
that settles it, or both are wrong in opposite directions. -/
def BothNeeded (rightF isF rightG isG : Prop) : Prop :=
  (rightF ∧ rightG) ∨ (rightF ∧ ¬ isF) ∨ (rightG ∧ ¬ isG) ∨ (¬ rightF ∧ ¬ rightG ∧ ¬ (isF ↔ isG))

/-- The same of a disjunction. -/
def OneNeeded (rightF isF rightG isG : Prop) : Prop :=
  (rightF ∧ rightG) ∨ (rightF ∧ isF) ∨ (rightG ∧ isG) ∨ (¬ rightF ∧ ¬ rightG ∧ ¬ (isF ↔ isG))

theorem bothNeeded_iff {foundF foundG isF isG : Prop} :
    ((foundF ∧ foundG) ↔ (isF ∧ isG)) ↔ BothNeeded (foundF ↔ isF) isF (foundG ↔ isG) isG := by
  unfold BothNeeded
  grind

theorem oneNeeded_iff {foundF foundG isF isG : Prop} :
    ((foundF ∨ foundG) ↔ (isF ∨ isG)) ↔ OneNeeded (foundF ↔ isF) isF (foundG ↔ isG) isG := by
  unfold OneNeeded
  grind

namespace Formula

variable {α : Type}

/-- With a test that knows no third value. -/
def eval (test : α → Bool) : Formula α → Bool
  | atom a => test a
  | never => false
  | not f => !f.eval test
  | and f g => f.eval test && g.eval test
  | or f g => f.eval test || g.eval test

def kleene (truth : α → Truth) : Formula α → Truth
  | atom a => truth a
  | never => .no
  | not f => (f.kleene truth).not
  | and f g => (f.kleene truth).and (g.kleene truth)
  | or f g => (f.kleene truth).or (g.kleene truth)

/-- Any of some formulas. -/
def any : List (Formula α) → Formula α
  | [] => never
  | f :: fs => or f (any fs)

/-- When the two-valued result is right about the truth of a formula (or, for the
polarity `false`, about its falsity), given when it is for the atoms. -/
def Exact (exact : Bool → α → Prop) (truth : α → Truth) : Bool → Formula α → Prop
  | polarity, atom a => exact polarity a
  | _, never => True
  | polarity, not f => f.Exact exact truth !polarity
  | true, and f g => BothNeeded (f.Exact exact truth true) (f.kleene truth = .yes) (g.Exact exact truth true) (g.kleene truth = .yes)
  | false, and f g => OneNeeded (f.Exact exact truth false) (f.kleene truth = .no) (g.Exact exact truth false) (g.kleene truth = .no)
  | true, or f g => OneNeeded (f.Exact exact truth true) (f.kleene truth = .yes) (g.Exact exact truth true) (g.kleene truth = .yes)
  | false, or f g => BothNeeded (f.Exact exact truth false) (f.kleene truth = .no) (g.Exact exact truth false) (g.kleene truth = .no)

theorem eval_any (test : α → Bool) (fs : List (Formula α)) : (any fs).eval test = fs.any (eval test) := by
  induction fs with
  | nil => rfl
  | cons f fs ih => rw [any, eval, ih, List.any_cons]

variable {test : α → Bool} {truth : α → Truth} {exact : Bool → α → Prop}

/-- What is right about truth and about falsity, by induction on the formula. -/
theorem right_iff (hyes : ∀ a, (test a = true ↔ truth a = .yes) ↔ exact true a) (hno : ∀ a, (test a = false ↔ truth a = .no) ↔ exact false a)
    (f : Formula α) :
    ((f.eval test = true ↔ f.kleene truth = .yes) ↔ f.Exact exact truth true) ∧
      ((f.eval test = false ↔ f.kleene truth = .no) ↔ f.Exact exact truth false) := by
  induction f with
  | atom a => exact ⟨hyes a, hno a⟩
  | never => simp [eval, kleene, Exact]
  | not f ih =>
    refine ⟨?_, ?_⟩
    · rw [eval, kleene, Exact, Bool.not_eq_true', Truth.not_eq_yes]
      exact ih.2
    · rw [eval, kleene, Exact, Bool.not_eq_false', Truth.not_eq_no]
      exact ih.1
  | and f g ihf ihg =>
    refine ⟨?_, ?_⟩
    · rw [eval, kleene, Exact, Bool.and_eq_true, Truth.and_eq_yes, bothNeeded_iff, ihf.1, ihg.1]
    · rw [eval, kleene, Exact, Bool.and_eq_false_iff, Truth.and_eq_no, oneNeeded_iff, ihf.2, ihg.2]
  | or f g ihf ihg =>
    refine ⟨?_, ?_⟩
    · rw [eval, kleene, Exact, Bool.or_eq_true, Truth.or_eq_yes, oneNeeded_iff, ihf.1, ihg.1]
    · rw [eval, kleene, Exact, Bool.or_eq_false_iff, Truth.or_eq_no, bothNeeded_iff, ihf.2, ihg.2]

end Formula

end FerroDruid.Lib
