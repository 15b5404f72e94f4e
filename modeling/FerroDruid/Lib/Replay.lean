import FerroDruid.Lib.HashMap
/-!
# Answers that are remembered

A server that keeps its answers, and answers a request from what it keeps if it knows
the key. Where a key is the key of one request, nobody can tell it from a server that
works every answer out.
-/

namespace FerroDruid.Lib

variable {ρ κ α ε : Type} [DecidableEq κ]

/-- An error is not kept. -/
def serve (key : ρ → κ) (f : ρ → Except ε α) (cache : HashMap κ α) (request : ρ) : HashMap κ α × Except ε α :=
  match cache.lookup (key request) with
  | some answer => (cache, .ok answer)
  | none =>
    match f request with
    | .ok answer => (AList.insert (key request) answer cache, .ok answer)
    | .error e => (cache, .error e)

/-- The answers kept under some keys are answers to requests that were made. -/
def Remembers (key : ρ → κ) (f : ρ → Except ε α) (mine : κ → Prop) (made : ρ → Prop) (cache : HashMap κ α) : Prop :=
  ∀ k answer, mine k → cache.lookup k = some answer → ∃ request, made request ∧ key request = k ∧ f request = .ok answer

variable {key : ρ → κ} {f : ρ → Except ε α} {mine : κ → Prop} {made made' : ρ → Prop} {cache : HashMap κ α} {request : ρ}

theorem Remembers.mono (h : Remembers key f mine made cache) (hmade : ∀ r, made r → made' r) : Remembers key f mine made' cache := by
  intro k answer hk hanswer
  obtain ⟨r, hr, hkey, hf⟩ := h k answer hk hanswer
  exact ⟨r, hmade r hr, hkey, hf⟩

theorem Remembers.serve_snd (h : Remembers key f mine made cache) (hone : ∀ r r', made r → made r' → key r = key r' → r = r')
    (hmade : made request) (hmine : mine (key request)) : (serve key f cache request).2 = f request := by
  unfold serve
  cases hkept : cache.lookup (key request) with
  | none => cases f request <;> rfl
  | some answer =>
    obtain ⟨r, hr, hkey, hf⟩ := h _ answer hmine hkept
    rw [hone request r hmade hr hkey.symm, hf]

theorem Remembers.serve_fst (h : Remembers key f mine made cache) (hmade : made request) : Remembers key f mine made (serve key f cache request).1 := by
  unfold serve
  cases hkept : cache.lookup (key request) with
  | some answer => exact h
  | none =>
    cases hf : f request with
    | error e => exact h
    | ok answer =>
      intro k answer' hk hanswer
      by_cases hkey : k = key request
      · subst hkey
        rw [AList.lookup_insert] at hanswer
        exact ⟨request, hmade, rfl, hf.trans (congrArg Except.ok (Option.some.inj hanswer))⟩
      · rw [AList.lookup_insert_ne hkey] at hanswer
        exact h k answer' hk hanswer

end FerroDruid.Lib
