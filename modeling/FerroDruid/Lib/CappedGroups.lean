import FerroDruid.Lib.Arrival
/-!
# Groups up to a number

Items are fed into the state of their group, and an item that would need one
group too many ends the run.
-/

namespace FerroDruid.Lib

variable {α κ σ ε : Type} [DecidableEq κ]

/-- A cap of 0 is none. `refusal` is given the number of groups that would be kept. -/
def feedCapped (cap : ℕ) (refusal : ℕ → ε) (key : α → κ) (init : α → σ) (feed : σ → α → σ) (m : HashMap κ σ) (a : α) : Except ε (HashMap κ σ) :=
  match m.lookup (key a) with
  | some s => .ok (AList.insert (key a) (feed s a) m)
  | none =>
    if 0 < cap ∧ cap ≤ m.keys.length then .error (refusal (m.keys.length + 1))
    else .ok (AList.insert (key a) (feed (init a) a) m)

variable {m : HashMap κ σ}

theorem feedCapped_some {cap : ℕ} {refusal : ℕ → ε} {key : α → κ} {init : α → σ} {feed : σ → α → σ} {a : α} {s : σ}
    (h : m.lookup (key a) = some s) : feedCapped cap refusal key init feed m a = .ok (AList.insert (key a) (feed s a) m) := by
  simp only [feedCapped, h]

theorem feedCapped_none {cap : ℕ} {refusal : ℕ → ε} {key : α → κ} {init : α → σ} {feed : σ → α → σ} {a : α}
    (h : m.lookup (key a) = none) : feedCapped cap refusal key init feed m a =
      if 0 < cap ∧ cap ≤ m.keys.length then .error (refusal (m.keys.length + 1)) else .ok (AList.insert (key a) (feed (init a) a) m) := by
  simp only [feedCapped, h]

/-- The groups fit. -/
def Fits (cap : ℕ) (m : HashMap κ σ) : Prop := cap = 0 ∨ m.keys.length ≤ cap

instance (cap : ℕ) (m : HashMap κ σ) : Decidable (Fits cap m) := inferInstanceAs (Decidable (cap = 0 ∨ m.keys.length ≤ cap))

theorem length_keys_insert (m : HashMap κ σ) (k : κ) (s : σ) :
    (AList.insert k s m).keys.length = if k ∈ m.keys then m.keys.length else m.keys.length + 1 := by
  rw [AList.keys_insert, List.length_cons]
  split_ifs with hk
  · rw [List.length_erase_of_mem hk]
    have hpos : 0 < m.keys.length := List.length_pos_of_mem hk
    omega
  · rw [List.erase_of_not_mem hk]

theorem length_keys_le_groupFold (key : α → κ) (init : α → σ) (feed : σ → α → σ) (items : List α) (m : HashMap κ σ) :
    m.keys.length ≤ (groupFold key init feed items m).keys.length := by
  induction items generalizing m with
  | nil => rfl
  | cons a items ih =>
    refine le_trans ?_ (ih _)
    rw [length_keys_insert]
    split_ifs <;> omega

/-- A run ends with all groups if they fit, and on the first one too many if not. -/
theorem foldlM_feedCapped (cap : ℕ) (refusal : ℕ → ε) (key : α → κ) (init : α → σ) (feed : σ → α → σ) (items : List α)
    (hm : Fits cap m) :
    items.foldlM (feedCapped cap refusal key init feed) m =
      if Fits cap (groupFold key init feed items m) then .ok (groupFold key init feed items m) else .error (refusal (cap + 1)) := by
  induction items generalizing m with
  | nil => rw [if_pos (show Fits cap (groupFold key init feed [] m) from hm)]; rfl
  | cons a items ih =>
    have hfold : groupFold key init feed (a :: items) m =
        groupFold key init feed items (AList.insert (key a) (feed (m.getD (key a) (init a)) a) m) := rfl
    rw [List.foldlM_cons, hfold]
    cases hlookup : m.lookup (key a) with
    | some s =>
      have hmem : key a ∈ m.keys := AList.mem_keys.1 (AList.lookup_isSome.1 (by rw [hlookup]; rfl))
      have hget : m.getD (key a) (init a) = s := by rw [HashMap.getD, hlookup, Option.getD_some]
      rw [hget, feedCapped_some hlookup]
      refine ih ?_
      rwa [Fits, length_keys_insert, if_pos hmem]
    | none =>
      have hmem : key a ∉ m.keys := fun hk => AList.lookup_eq_none.1 hlookup (AList.mem_keys.2 hk)
      have hget : m.getD (key a) (init a) = init a := by rw [HashMap.getD, hlookup, Option.getD_none]
      rw [hget, feedCapped_none hlookup]
      have hlen := length_keys_insert m (key a) (feed (init a) a)
      rw [if_neg hmem] at hlen
      by_cases hfull : 0 < cap ∧ cap ≤ m.keys.length
      · have hle := length_keys_le_groupFold key init feed items (AList.insert (key a) (feed (init a) a) m)
        have heq : m.keys.length = cap := hm.elim (fun h => by omega) fun h => by omega
        have hnot : ¬ Fits cap (groupFold key init feed items (AList.insert (key a) (feed (init a) a) m)) := by
          rintro (h | h) <;> omega
        rw [if_pos hfull, if_neg hnot, heq]
        rfl
      · rw [if_neg hfull]
        refine ih ?_
        rcases hm with h | h
        · exact .inl h
        · by_cases hcap : cap = 0
          · exact .inl hcap
          · exact .inr (by omega)

end FerroDruid.Lib
