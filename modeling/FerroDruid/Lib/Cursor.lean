import FerroDruid.Lib.Bytes
/-!
# Cursors

A cursor reads a buffer from a position and stops at another, or fails. It is
`Local` when more bytes behind the buffer change nothing in what it reads:
every cursor that checks the bytes it needs before it takes them is. A decoder
that must end where the buffer ends then refuses whatever is appended to a
buffer it accepts.
-/

namespace FerroDruid.Lib

open List

variable {ε α β : Type}

/-- What is read, with the position after it. -/
def Cursor (ε α : Type) := Bytes → ℕ → Except ε (α × ℕ)

namespace Cursor

instance : Monad (Cursor ε) where
  pure a := fun _ pos => .ok (a, pos)
  bind r f := fun data pos => match r data pos with
    | .error e => .error e
    | .ok (a, next) => f a data next

def fail (e : ε) : Cursor ε α := fun _ _ => .error e

/-- What was read so far is refused. -/
def refuse (c : Prop) [Decidable c] (e : ε) : Cursor ε Unit := if c then fail e else pure ()

/-- `n` bytes are left. The error may name the length of the buffer and the position. -/
def need (n : ℕ) (e : ℕ → ℕ → ε) : Cursor ε Unit := fun data pos =>
  if pos + n > data.length then .error (e data.length pos) else .ok ((), pos)

/-- The next `n` bytes. -/
def take (n : ℕ) (e : ℕ → ℕ → ε) : Cursor ε Bytes := fun data pos =>
  if pos + n > data.length then .error (e data.length pos) else .ok ((data.drop pos).take n, pos + n)

def ofExcept (x : Except ε α) : Cursor ε α := fun _ pos => match x with
  | .error e => .error e
  | .ok a => .ok (a, pos)

/-- `n` items, the reader of each given its number. -/
def collect (read : ℕ → Cursor ε α) : ℕ → ℕ → Cursor ε (List α)
  | 0, _ => pure []
  | n + 1, i => do
    let a ← read i
    let rest ← collect read n (i + 1)
    return a :: rest

/-- The whole buffer, from its start. -/
def exactly (r : Cursor ε α) (trailing : ℕ → ε) (data : Bytes) : Except ε α :=
  match r data 0 with
  | .error e => .error e
  | .ok (a, pos) => if pos ≠ data.length then .error (trailing (data.length - pos)) else .ok a

/-- Some of the buffer, from its start. -/
def prefixOf (r : Cursor ε α) (data : Bytes) : Except ε α :=
  match r data 0 with
  | .error e => .error e
  | .ok (a, _) => .ok a

/-! ## Locality -/

/-- What is read stays inside the buffer, and is read from every longer buffer. -/
structure Local (r : Cursor ε α) : Prop where
  extend : ∀ {data pos a next}, pos ≤ data.length → r data pos = .ok (a, next) →
    next ≤ data.length ∧ ∀ more, r (data ++ more) pos = .ok (a, next)

theorem pure_local (a : α) : Local (pure a : Cursor ε α) := by
  constructor
  intro data pos b next hpos h
  cases h
  exact ⟨hpos, fun _ => rfl⟩

variable {f : α → Cursor ε β}

theorem bind_local {r : Cursor ε α} (hr : Local r) (hf : ∀ a, Local (f a)) : Local (r >>= f) := by
  constructor
  intro data pos b next hpos h
  simp only [bind] at h ⊢
  split at h
  · cases h
  · rename_i a mid hread
    obtain ⟨hmid, hmore⟩ := hr.extend hpos hread
    obtain ⟨hnext, hrest⟩ := (hf a).extend hmid h
    exact ⟨hnext, fun more => by simp only [hmore more, hrest more]⟩

theorem fail_local (e : ε) : Local (fail e : Cursor ε α) := by
  constructor
  intro data pos a next _ h
  cases h

theorem refuse_local (c : Prop) [Decidable c] (e : ε) : Local (refuse c e) := by
  unfold refuse
  split
  · exact fail_local e
  · exact pure_local ()

theorem need_local (n : ℕ) (e : ℕ → ℕ → ε) : Local (need n e) := by
  constructor
  intro data pos a next hpos h
  unfold need at h ⊢
  split at h
  · cases h
  · cases h
    refine ⟨hpos, fun more => if_neg ?_⟩
    rw [length_append]
    omega

theorem take_local (n : ℕ) (e : ℕ → ℕ → ε) : Local (take n e) := by
  constructor
  intro data pos a next hpos h
  unfold take at h ⊢
  split at h
  · cases h
  · cases h
    refine ⟨by omega, fun more => ?_⟩
    rw [if_neg (by rw [length_append]; omega), drop_append_of_le_length hpos, take_append_of_le_length]
    rw [length_drop]
    omega

theorem ofExcept_local (x : Except ε α) : Local (ofExcept x) := by
  constructor
  intro data pos a next hpos h
  cases x with
  | error e => cases h
  | ok b =>
    cases h
    exact ⟨hpos, fun _ => rfl⟩

variable {read : ℕ → Cursor ε α}

theorem collect_local (h : ∀ i, Local (read i)) (n i : ℕ) : Local (collect read n i) := by
  induction n generalizing i with
  | zero => exact pure_local []
  | succ n ih => exact bind_local (h i) fun a => bind_local (ih (i + 1)) fun rest => pure_local (a :: rest)

/-! ## Appended bytes -/

variable {r : Cursor ε α} {trailing : ℕ → ε} {data more : Bytes} {a : α}

theorem exactly_ok : exactly r trailing data = .ok a ↔ r data 0 = .ok (a, data.length) := by
  unfold exactly
  split
  · rename_i hread
    simp [hread]
  · rename_i b pos hread
    rw [hread]
    by_cases hpos : pos = data.length
    · simp [hpos]
    · simp [hpos]

/-- A buffer that was read to its end is refused with anything behind it. -/
theorem exactly_append (h : Local r) (hd : ∃ a, exactly r trailing data = .ok a) (hmore : more ≠ []) :
    ¬ ∃ b, exactly r trailing (data ++ more) = .ok b := by
  obtain ⟨a, hd⟩ := hd
  rintro ⟨b, hb⟩
  obtain ⟨-, hlonger⟩ := h.extend (Nat.zero_le _) (exactly_ok.1 hd)
  have hsame := (hlonger more).symm.trans (exactly_ok.1 hb)
  have hlen : data.length = (data ++ more).length := congrArg Prod.snd (Except.ok.inj hsame)
  have hpos := length_pos_of_ne_nil hmore
  rw [length_append] at hlen
  omega

/-- A cursor that is not held to the end reads the same. -/
theorem prefixOf_append (h : Local r) (hd : prefixOf r data = .ok a) : prefixOf r (data ++ more) = .ok a := by
  unfold prefixOf at hd ⊢
  split at hd
  · cases hd
  · rename_i b pos hread
    cases hd
    rw [(h.extend (Nat.zero_le _) hread).2 more]

/-! ## Errors that do not arise -/

/-- Whatever it reads, it does not fail so. -/
def Avoids (r : Cursor ε α) (e : ε) : Prop := ∀ data pos, r data pos ≠ .error e

theorem pure_avoids (a : α) (e : ε) : Avoids (pure a) e := fun _ _ => nofun

variable {e : ε}

theorem bind_avoids {r : Cursor ε α} (hr : Avoids r e) (hf : ∀ a, Avoids (f a) e) : Avoids (r >>= f) e := by
  intro data pos h
  simp only [bind] at h
  split at h
  · rename_i e' hread
    cases h
    exact hr data pos hread
  · rename_i a mid hread
    exact hf a data mid h

theorem fail_avoids {e' : ε} (h : e' ≠ e) : Avoids (fail e' : Cursor ε α) e := fun _ _ heq => h (Except.error.inj heq)

theorem refuse_avoids {c : Prop} [Decidable c] {e' : ε} (h : e' ≠ e) : Avoids (refuse c e') e := by
  unfold refuse
  split
  · exact fail_avoids h
  · exact pure_avoids () e

theorem need_avoids {n : ℕ} {e' : ℕ → ℕ → ε} (h : ∀ len pos, e' len pos ≠ e) : Avoids (need n e') e := by
  intro data pos heq
  unfold need at heq
  split at heq
  · exact h _ _ (Except.error.inj heq)
  · cases heq

theorem take_avoids {n : ℕ} {e' : ℕ → ℕ → ε} (h : ∀ len pos, e' len pos ≠ e) : Avoids (take n e') e := by
  intro data pos heq
  unfold take at heq
  split at heq
  · exact h _ _ (Except.error.inj heq)
  · cases heq

theorem ofExcept_avoids {x : Except ε α} (h : x ≠ .error e) : Avoids (ofExcept x) e := by
  intro data pos heq
  unfold ofExcept at heq
  split at heq
  · exact h (congrArg _ (Except.error.inj heq))
  · cases heq

theorem collect_avoids (h : ∀ i, Avoids (read i) e) (n i : ℕ) : Avoids (collect read n i) e := by
  induction n generalizing i with
  | zero => exact pure_avoids [] e
  | succ n ih => exact bind_avoids (h i) fun a => bind_avoids (ih (i + 1)) fun rest => pure_avoids (a :: rest) e

/-! ## Reading what was written -/

variable {pos : ℕ}

theorem bind_ok {next : ℕ} (h : r data pos = .ok (a, next)) : (r >>= f) data pos = f a data next := by
  simp only [bind, h]

theorem refuse_not {c : Prop} [Decidable c] (h : ¬c) (pos : ℕ) : refuse c e data pos = .ok ((), pos) := by
  rw [refuse, if_neg h]
  rfl

theorem need_of_le {n : ℕ} {e : ℕ → ℕ → ε} (h : pos + n ≤ data.length) : need n e data pos = .ok ((), pos) :=
  if_neg (by omega)

theorem take_at {bs : Bytes} {n : ℕ} {e : ℕ → ℕ → ε} (h : At data pos bs) (hn : bs.length = n) (hbs : bs ≠ []) :
    take n e data pos = .ok (bs, pos + n) := by
  subst hn
  have hle := h.length_le hbs
  rw [take, if_neg (by omega), h.take_eq]

/-- Items that stand one behind the other. -/
theorem collect_at {write : α → Bytes} {items : List α}
    (h : ∀ item ∈ items, ∀ i pos, At data pos (write item) → read i data pos = .ok (item, pos + (write item).length)) (i : ℕ)
    (hat : At data pos (items.flatMap write)) :
    collect read items.length i data pos = .ok (items, pos + (items.flatMap write).length) := by
  induction items generalizing i pos with
  | nil => rfl
  | cons item items ih =>
    rw [forall_mem_cons] at h
    obtain ⟨hitem, hitems⟩ := At.append_iff.1 hat
    rw [length_cons, collect, bind_ok (h.1 i pos hitem), bind_ok (ih h.2 (i + 1) hitems), flatMap_cons, length_append, ← Nat.add_assoc]
    rfl

end Cursor

end FerroDruid.Lib
