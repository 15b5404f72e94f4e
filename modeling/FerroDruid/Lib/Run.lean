import Mathlib.Data.List.Infix
/-!
# Runs of a step function

A system is a step function on states and inputs; whatever the environment
chooses (the next message, the clock, a random draw) is part of the input. A
run is the fold of the step over a list of inputs, so a theorem about every
list of inputs is a theorem about every run, and the states a run passes
through are the folds over its prefixes.

`Guarded` says that every input of a run meets a condition in the state it is
taken from. It is how "in every run whose steps all ..." is stated.
-/

namespace FerroDruid.Lib

variable {σ ι : Type*}

/-- Every input meets `ok` in the state it is taken from. -/
def Guarded (step : σ → ι → σ) (ok : σ → ι → Prop) : σ → List ι → Prop
  | _, [] => True
  | s, i :: is => ok s i ∧ Guarded step ok (step s i) is

variable {step : σ → ι → σ} {ok ok' : σ → ι → Prop}

instance Guarded.decidable [∀ s i, Decidable (ok s i)] : ∀ s is, Decidable (Guarded step ok s is)
  | _, [] => .isTrue trivial
  | s, i :: is => @instDecidableAnd _ _ _ (Guarded.decidable (step s i) is)

@[simp] theorem guarded_nil (s : σ) : Guarded step ok s [] := trivial

@[simp] theorem guarded_cons (s : σ) (i : ι) (is : List ι) :
    Guarded step ok s (i :: is) ↔ ok s i ∧ Guarded step ok (step s i) is := Iff.rfl

theorem guarded_append (s : σ) (is js : List ι) :
    Guarded step ok s (is ++ js) ↔ Guarded step ok s is ∧ Guarded step ok (is.foldl step s) js := by
  induction is generalizing s with
  | nil => simp
  | cons i is ih => simp [ih, and_assoc]

variable {s : σ} {is : List ι}

/-- The states a run passes through before its end meet the same condition. -/
theorem Guarded.shorten {js : List ι} (h : Guarded step ok s js) (hp : is <+: js) :
    Guarded step ok s is := by
  obtain ⟨ks, rfl⟩ := hp
  exact ((guarded_append s is ks).1 h).1

theorem Guarded.and (h : Guarded step ok s is) (h' : Guarded step ok' s is) :
    Guarded step (fun s i => ok s i ∧ ok' s i) s is := by
  induction is generalizing s with
  | nil => trivial
  | cons i is ih => exact ⟨⟨h.1, h'.1⟩, ih h.2 h'.2⟩

/-- A run is guarded when the input after each of its prefixes is admissible. -/
theorem guarded_iff_forall (s : σ) (is : List ι) :
    Guarded step ok s is ↔ ∀ (js : List ι) (i : ι), js ++ [i] <+: is → ok (js.foldl step s) i := by
  constructor
  · intro h js i hp
    have hg := (guarded_append s js [i]).1 (h.shorten hp)
    exact hg.2.1
  · intro h
    induction is generalizing s with
    | nil => trivial
    | cons i is ih =>
      refine ⟨h [] i ⟨is, rfl⟩, ih (step s i) fun js j hp => ?_⟩
      exact h (i :: js) j (List.cons_prefix_cons.2 ⟨rfl, hp⟩)

/-- The invariant rule: what every admissible step keeps holds after every
guarded run. -/
theorem Guarded.inv (I : σ → Prop) (hstep : ∀ s i, ok s i → I s → I (step s i))
    (h : Guarded step ok s is) (h0 : I s) : I (is.foldl step s) := by
  induction is generalizing s with
  | nil => exact h0
  | cons i is ih => exact ih h.2 (hstep s i h.1 h0)

/-- What every admissible step of an invariant's states does, every step of a
guarded run does. -/
theorem Guarded.guard (I : σ → Prop) (hstep : ∀ s i, ok s i → I s → I (step s i) ∧ ok' s i)
    (h : Guarded step ok s is) (h0 : I s) : Guarded step ok' s is := by
  induction is generalizing s with
  | nil => trivial
  | cons i is ih =>
    obtain ⟨hi, hok⟩ := hstep s i h.1 h0
    exact ⟨hok, ih h.2 hi⟩

/-- A condition that only fails when the step breaks `P` holds along every run
that keeps `P` at each prefix. -/
theorem guarded_of_along (P : σ → Prop) (hstep : ∀ s i, P s → P (step s i) → ok s i)
    (h : ∀ js, js <+: is → P (js.foldl step s)) : Guarded step ok s is := by
  induction is generalizing s with
  | nil => trivial
  | cons i is ih =>
    refine ⟨hstep s i (h [] List.nil_prefix) (h [i] ⟨is, rfl⟩), ih fun js hjs => ?_⟩
    exact h (i :: js) (List.cons_prefix_cons.2 ⟨rfl, hjs⟩)

end FerroDruid.Lib
