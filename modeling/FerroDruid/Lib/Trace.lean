import Mathlib.Data.List.Infix
/-!
# Histories

What a computation did, as a list of events, each with the state it left. A
history leads from one state to another when every event is a step from the
state before it.
-/

namespace FerroDruid.Lib

variable {σ ε : Type*}

inductive Trace (Step : σ → ε → σ → Prop) : σ → List (ε × σ) → σ → Prop where
  | nil (s : σ) : Trace Step s [] s
  | cons {s s' t : σ} {e : ε} {hs : List (ε × σ)} (step : Step s e s') (rest : Trace Step s' hs t) :
    Trace Step s ((e, s') :: hs) t

namespace Trace

variable {Step Step' : σ → ε → σ → Prop} {s t u : σ} {hs hs' : List (ε × σ)}

theorem append (h : Trace Step s hs t) (h' : Trace Step t hs' u) : Trace Step s (hs ++ hs') u := by
  induction h with
  | nil => exact h'
  | cons step _ ih => exact .cons step (ih h')

theorem single {e : ε} (step : Step s e t) : Trace Step s [(e, t)] t := .cons step (.nil t)

theorem imp (himp : ∀ s e t, Step s e t → Step' s e t) (h : Trace Step s hs t) : Trace Step' s hs t := by
  induction h with
  | nil => exact .nil _
  | cons step _ ih => exact .cons (himp _ _ _ step) ih

/-- What every step keeps holds at the end and after every event. -/
theorem inv {I : σ → Prop} (hstep : ∀ s e t, Step s e t → I s → I t) (h : Trace Step s hs t) (h0 : I s) :
    I t ∧ ∀ e ∈ hs, I e.2 := by
  induction h with
  | nil => exact ⟨h0, nofun⟩
  | cons step _ ih =>
    have h1 := hstep _ _ _ step h0
    obtain ⟨hend, hall⟩ := ih h1
    exact ⟨hend, List.forall_mem_cons.2 ⟨h1, hall⟩⟩

/-- What every step from a state of the invariant makes true is true of every
event. -/
theorem forall_mem {I : σ → Prop} {Q : ε → σ → Prop} (hstep : ∀ s e t, Step s e t → I s → I t ∧ Q e t) (h : Trace Step s hs t)
    (h0 : I s) : ∀ e ∈ hs, Q e.1 e.2 := by
  induction h with
  | nil => exact nofun
  | cons step _ ih =>
    obtain ⟨h1, hq⟩ := hstep _ _ _ step h0
    exact List.forall_mem_cons.2 ⟨hq, ih h1⟩

/-- An observation that every event changes by a rule is changed by all of them
in order. -/
theorem foldl_obs {ω : Type*} {obs : σ → ω} {rule : ω → ε → ω} (hstep : ∀ s e t, Step s e t → obs t = rule (obs s) e)
    (h : Trace Step s hs t) : obs t = (hs.map (·.1)).foldl rule (obs s) := by
  induction h with
  | nil => rfl
  | cons step _ ih => rw [ih, hstep _ _ _ step, List.map_cons, List.foldl_cons]

end Trace

end FerroDruid.Lib
