import Mathlib.Data.List.Basic
import Mathlib.Order.Nat
/-!
# Back-references

A back-reference repeats what stands earlier in the output. It is copied one
element at a time, so it may reach into what it writes itself.
`copyFrom_take` says when it continues a list that is being rebuilt: when the
list agrees with itself over its length. `matchLength` is how far it does.
-/

namespace FerroDruid.Lib

variable {α : Type*}

/-- `n` elements, the first of them at `start`, are pushed one by one. -/
def copyFrom : ℕ → ℕ → List α → List α
  | _, 0, out => out
  | start, n + 1, out => copyFrom (start + 1) n (out ++ out[start]?.toList)

/-- `xs` is the same at `a` as at `b`, for `n` elements. -/
def Agrees (xs : List α) (a b n : ℕ) : Prop := ∀ i < n, xs[a + i]? = xs[b + i]?

theorem Agrees.tail {xs : List α} {a b n : ℕ} (h : Agrees xs a b (n + 1)) : Agrees xs (a + 1) (b + 1) n := by
  intro i hi
  rw [Nat.add_assoc, Nat.add_assoc, Nat.add_comm 1 i]
  exact h (i + 1) (Nat.succ_lt_succ hi)

theorem copyFrom_take {xs : List α} {start pos n : ℕ} (hs : start < pos) (hn : pos + n ≤ xs.length)
    (h : Agrees xs start pos n) : copyFrom start n (xs.take pos) = xs.take (pos + n) := by
  induction n generalizing start pos with
  | zero => rfl
  | succ n ih =>
    have hnext : (xs.take pos)[start]? = xs[pos]? := by
      rw [List.getElem?_take_of_lt hs]
      exact h 0 (Nat.succ_pos n)
    rw [copyFrom, hnext, ← List.take_add_one, ih (Nat.succ_lt_succ hs) (by omega) h.tail]
    congr 1
    omega

variable [DecidableEq α]

/-- How long the elements from `a` and from `b` are the same, when `m` are known
to be and `n` more are looked at. -/
def matchLength (xs : List α) (a b : ℕ) : ℕ → ℕ → ℕ
  | 0, m => m
  | n + 1, m => if xs[a + m]? = xs[b + m]? then matchLength xs a b n (m + 1) else m

theorem matchLength_spec (xs : List α) (a b n : ℕ) {m : ℕ} (h : Agrees xs a b m) :
    m ≤ matchLength xs a b n m ∧ matchLength xs a b n m ≤ m + n ∧ Agrees xs a b (matchLength xs a b n m) := by
  induction n generalizing m with
  | zero => exact ⟨le_rfl, le_rfl, h⟩
  | succ n ih =>
    unfold matchLength
    split
    · rename_i hnext
      have hlonger : Agrees xs a b (m + 1) := by
        intro i hi
        rcases (Nat.lt_succ_iff.1 hi).lt_or_eq with hlt | rfl
        · exact h i hlt
        · exact hnext
      obtain ⟨hlo, hhi, hag⟩ := ih hlonger
      exact ⟨by omega, by omega, hag⟩
    · exact ⟨le_rfl, by omega, h⟩

end FerroDruid.Lib
