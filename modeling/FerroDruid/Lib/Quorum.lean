import Mathlib.Data.Finset.Card
/-!
# Quorums

A quorum is more than half of the members, so two quorums share a member. What
each member gives to one party only, two parties cannot both have from a quorum.
-/

namespace FerroDruid.Lib

variable {α β : Type}

/-- More than half of the members. -/
structure Quorum (members Q : Finset α) : Prop where
  sub : Q ⊆ members
  half : members.card < 2 * Q.card

variable {members Q Q' : Finset α}

theorem Quorum.inter [DecidableEq α] (h : Quorum members Q) (h' : Quorum members Q') : ∃ v ∈ Q, v ∈ Q' := by
  have hlt : members.card < Q.card + Q'.card := by
    have := h.half
    have := h'.half
    omega
  obtain ⟨v, hv⟩ := Finset.inter_nonempty_of_card_lt_card_add_card h.sub h'.sub hlt
  exact ⟨v, (Finset.mem_inter.1 hv).1, (Finset.mem_inter.1 hv).2⟩

/-- Two parties with the ballots of a quorum each are one, when nobody casts a
ballot for two. -/
theorem Quorum.unique [DecidableEq α] (ballot : α → β → Prop) (hone : ∀ v ∈ members, ∀ b b', ballot v b → ballot v b' → b = b')
    {b b' : β} (h : Quorum members Q) (hb : ∀ v ∈ Q, ballot v b) (h' : Quorum members Q')
    (hb' : ∀ v ∈ Q', ballot v b') : b = b' := by
  obtain ⟨v, hv, hv'⟩ := h.inter h'
  exact hone v (h.sub hv) b b' (hb v hv) (hb' v hv')

/-- The majority the engines count up to is a quorum. -/
theorem Quorum.of_majority (hQ : Q ⊆ members) (h : members.card / 2 + 1 ≤ Q.card) : Quorum members Q :=
  ⟨hQ, by omega⟩

end FerroDruid.Lib
