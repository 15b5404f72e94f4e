import Mathlib.Order.Basic
/-!
# Maps kept in the order of their keys

A `BTreeMap` as the list of its entries, whose keys strictly ascend.
-/

namespace FerroDruid.Lib

open List

structure OrderedMap (κ α : Type) [LT κ] where
  entries : List (κ × α)
  sorted : entries.Pairwise fun a b => a.1 < b.1

namespace OrderedMap

variable {κ α : Type}

section

variable [LT κ]

def empty : OrderedMap κ α := ⟨[], .nil⟩

/-- `iter().next()`. -/
def first (m : OrderedMap κ α) : Option (κ × α) := m.entries.head?

def get [DecidableEq κ] (m : OrderedMap κ α) (k : κ) : Option α := (m.entries.find? fun e => e.1 = k).map (·.2)

def erase [DecidableEq κ] (m : OrderedMap κ α) (k : κ) : OrderedMap κ α :=
  ⟨m.entries.filter fun e => e.1 ≠ k, m.sorted.sublist List.filter_sublist⟩

/-- The entries with one more in its place. -/
def insertEntry [DecidableLT κ] (k : κ) (v : α) : List (κ × α) → List (κ × α)
  | [] => [(k, v)]
  | e :: es => if k < e.1 then (k, v) :: e :: es else if e.1 < k then e :: insertEntry k v es else (k, v) :: es

theorem mem_insertEntry [DecidableLT κ] {k : κ} {v : α} {es : List (κ × α)} {e : κ × α} (h : e ∈ insertEntry k v es) :
    e = (k, v) ∨ e ∈ es := by
  induction es with
  | nil => exact .inl (mem_singleton.1 h)
  | cons e' es ih =>
    unfold insertEntry at h
    split_ifs at h
    · exact mem_cons.1 h
    · rcases mem_cons.1 h with rfl | h
      · exact .inr (mem_cons_self ..)
      · exact (ih h).imp_right (mem_cons_of_mem _)
    · exact (mem_cons.1 h).imp_right (mem_cons_of_mem _)

end

section

variable [LE κ] [LT κ] [Std.LawfulOrderLT κ]

/-- Every key has one value. -/
theorem value_unique (m : OrderedMap κ α) {k : κ} {v v' : α} (h : (k, v) ∈ m.entries) (h' : (k, v') ∈ m.entries) : v = v' := by
  have hsorted := m.sorted
  generalize m.entries = es at h h' hsorted
  induction es with
  | nil => cases h
  | cons e es ih =>
    obtain ⟨hall, hes⟩ := pairwise_cons.1 hsorted
    rcases mem_cons.1 h with rfl | h <;> rcases mem_cons.1 h' with h' | h'
    · exact ((Prod.mk.inj h').2).symm
    · exact absurd (hall _ h') Std.lt_irrefl
    · exact absurd (h' ▸ hall _ h) Std.lt_irrefl
    · exact ih h h' hes

theorem get_eq_some_iff [DecidableEq κ] (m : OrderedMap κ α) {k : κ} {v : α} : m.get k = some v ↔ (k, v) ∈ m.entries := by
  unfold get
  constructor
  · intro h
    obtain ⟨e, he, rfl⟩ := Option.map_eq_some_iff.1 h
    have hkey : e.1 = k := by simpa using find?_some he
    exact hkey ▸ mem_of_find?_eq_some he
  · intro h
    cases hfind : m.entries.find? fun e => e.1 = k with
    | none => exact absurd (find?_eq_none.1 hfind _ h) (by simp)
    | some e =>
      have hkey : e.1 = k := by simpa using find?_some hfind
      have hmem : (k, e.2) ∈ m.entries := hkey ▸ mem_of_find?_eq_some hfind
      exact congrArg some (m.value_unique hmem h)

end

variable [LE κ] [LT κ] [Std.IsLinearOrder κ] [Std.LawfulOrderLT κ] [DecidableLT κ]

theorem sorted_insertEntry (k : κ) (v : α) {es : List (κ × α)} (h : es.Pairwise fun a b => a.1 < b.1) :
    (insertEntry k v es).Pairwise fun a b => a.1 < b.1 := by
  induction es with
  | nil => exact pairwise_singleton _ _
  | cons e es ih =>
    obtain ⟨hall, hes⟩ := pairwise_cons.1 h
    unfold insertEntry
    split_ifs with hk hk'
    · refine pairwise_cons.2 ⟨fun a ha => ?_, h⟩
      rcases mem_cons.1 ha with rfl | ha
      · exact hk
      · exact Std.lt_trans hk (hall a ha)
    · refine pairwise_cons.2 ⟨fun a ha => ?_, ih hes⟩
      rcases mem_insertEntry ha with rfl | ha
      · exact hk'
      · exact hall a ha
    · have heq : k = e.1 := Std.le_antisymm (Std.not_lt.1 hk') (Std.not_lt.1 hk)
      exact pairwise_cons.2 ⟨fun a ha => heq ▸ hall a ha, hes⟩

def insert (m : OrderedMap κ α) (k : κ) (v : α) : OrderedMap κ α := ⟨insertEntry k v m.entries, sorted_insertEntry k v m.sorted⟩

/-- A key after all others is put last. -/
theorem insert_last (m : OrderedMap κ α) {k : κ} (v : α) (h : ∀ e ∈ m.entries, e.1 < k) :
    (m.insert k v).entries = m.entries ++ [(k, v)] := by
  change insertEntry k v m.entries = _
  generalize m.entries = es at h
  induction es with
  | nil => rfl
  | cons e es ih =>
    obtain ⟨he, hes⟩ := forall_mem_cons.1 h
    have hk : ¬ k < e.1 := fun hk => Std.lt_irrefl (Std.lt_trans he hk)
    rw [insertEntry, if_neg hk, if_pos he, ih hes]
    rfl

end OrderedMap

end FerroDruid.Lib
