import Mathlib.Algebra.BigOperators.Group.List.Basic
import Mathlib.Algebra.GroupWithZero.Nat
import Mathlib.Data.Finset.Card
import Mathlib.Data.List.AList
import Mathlib.Data.List.Dedup
/-!
# Hash maps

A hash map is an association list with distinct keys; the order of its
entries stands for an iteration order, which no caller may rely on. Two maps
are the same map when every key reads the same.
-/

namespace FerroDruid.Lib

open List

/-- A finite map, with an iteration order. -/
abbrev HashMap (κ α : Type) := AList (fun _ : κ => α)

namespace HashMap

variable {κ α β : Type}

/-- The values, in iteration order. -/
def values (m : HashMap κ α) : List α := m.entries.map (·.2)

/-- Rewrite every value in place. -/
def mapValues (f : α → β) (m : HashMap κ α) : HashMap κ β where
  entries := m.entries.map fun e => ⟨e.1, f e.2⟩
  nodupKeys := by
    have h := m.nodupKeys
    simp only [List.NodupKeys, List.keys, List.map_map] at h ⊢
    exact h

variable [DecidableEq κ]

/-- Mathlib's instance is a rewrite, which does not compute. -/
instance [DecidableEq α] : DecidableEq (HashMap κ α) := fun m m' =>
  decidable_of_iff (m.entries = m'.entries) AList.ext_iff.symm

/-- The value at `k`, or `d` when there is none. -/
def getD (m : HashMap κ α) (k : κ) (d : α) : α := (m.lookup k).getD d

/-- Rewrite the value at a key in place. -/
def modify (m : HashMap κ α) (k : κ) (f : α → α) : HashMap κ α where
  entries := m.entries.map fun e => if e.1 = k then ⟨e.1, f e.2⟩ else e
  nodupKeys := by
    have hkeys : (m.entries.map fun e => if e.1 = k then (⟨e.1, f e.2⟩ : Sigma fun _ : κ => α) else e).keys = m.entries.keys := by
      simp only [List.keys, List.map_map]
      refine List.map_congr_left fun e _ => ?_
      simp only [Function.comp_apply]
      split_ifs <;> rfl
    rw [List.NodupKeys, hkeys]
    exact m.nodupKeys

/-- Two maps read the same at every key, as far as `f` looks. -/
def SameUpTo (f : α → β) (m m' : HashMap κ α) : Prop := ∀ k, (m.lookup k).map f = (m'.lookup k).map f

@[simp] theorem getD_insert_self (m : HashMap κ α) (k : κ) (v d : α) : HashMap.getD (AList.insert k v m) k d = v := by
  rw [HashMap.getD, AList.lookup_insert, Option.getD_some]

theorem getD_insert_of_ne {m : HashMap κ α} {k k' : κ} {v d : α} (h : k ≠ k') :
    HashMap.getD (AList.insert k' v m) k d = m.getD k d := by
  rw [HashMap.getD, AList.lookup_insert_ne h, HashMap.getD]

theorem mem_values {m : HashMap κ α} {v : α} : v ∈ m.values ↔ ∃ k, m.lookup k = some v := by
  simp only [values, mem_map]
  constructor
  · rintro ⟨⟨k, w⟩, he, rfl⟩
    exact ⟨k, AList.mem_lookup_iff.2 he⟩
  · rintro ⟨k, hk⟩
    exact ⟨⟨k, v⟩, AList.mem_lookup_iff.1 hk, rfl⟩

theorem lookup_modify (m : HashMap κ α) (k k' : κ) (f : α → α) :
    (m.modify k f).lookup k' = if k' = k then (m.lookup k).map f else m.lookup k' := by
  have key : ∀ l : List (Sigma fun _ : κ => α),
      List.dlookup k' (l.map fun e => if e.1 = k then (⟨e.1, f e.2⟩ : Sigma fun _ : κ => α) else e) =
        if k' = k then (List.dlookup k l).map f else List.dlookup k' l := by
    intro l
    induction l with
    | nil => simp
    | cons e l ih =>
      obtain ⟨k₀, v⟩ := e
      rw [map_cons]
      by_cases hk' : k' = k₀
      · subst hk'
        by_cases hk : k' = k
        · subst hk
          simp
        · rw [if_neg hk, if_neg hk, dlookup_cons_eq, dlookup_cons_eq]
      · by_cases hk : k₀ = k
        · subst hk
          rw [if_pos rfl, dlookup_cons_ne _ _ hk', if_neg hk', dlookup_cons_ne _ _ hk', ih, if_neg hk']
        · rw [if_neg hk, dlookup_cons_ne _ _ hk', dlookup_cons_ne _ _ (Ne.symm hk), dlookup_cons_ne _ _ hk', ih]
  exact key m.entries

theorem lookup_mapValues (f : α → β) (m : HashMap κ α) (k : κ) :
    (mapValues f m).lookup k = (m.lookup k).map f := by
  have key : ∀ l : List (Sigma fun _ : κ => α),
      List.dlookup k (l.map fun e => (⟨e.1, f e.2⟩ : Sigma fun _ : κ => β)) = (List.dlookup k l).map f := by
    intro l
    induction l with
    | nil => rfl
    | cons e l ih =>
      obtain ⟨k', v⟩ := e
      by_cases hk : k' = k
      · subst hk; simp
      · rw [map_cons, dlookup_cons_ne _ _ (Ne.symm hk), dlookup_cons_ne _ _ (Ne.symm hk), ih]
  exact key m.entries

/-- Folding one map into another touches each key once. -/
theorem lookup_foldl_insert (g : Option β → α → β) (src : HashMap κ α) (m : HashMap κ β) (k : κ) :
    (src.entries.foldl (fun m e => AList.insert e.1 (g (m.lookup e.1) e.2) m) m).lookup k =
      match src.lookup k with
      | none => m.lookup k
      | some a => some (g (m.lookup k) a) := by
  have key : ∀ (l : List (Sigma fun _ : κ => α)) (m : HashMap κ β), l.NodupKeys →
      (l.foldl (fun m e => AList.insert e.1 (g (m.lookup e.1) e.2) m) m).lookup k =
        match List.dlookup k l with
        | none => m.lookup k
        | some a => some (g (m.lookup k) a) := by
    intro l
    induction l with
    | nil => intro m _; rfl
    | cons e l ih =>
      obtain ⟨k', a⟩ := e
      intro m hl
      obtain ⟨hk', hl⟩ := nodupKeys_cons.1 hl
      rw [foldl_cons, ih _ hl]
      by_cases hk : k = k'
      · subst hk
        rw [dlookup_eq_none.2 hk', dlookup_cons_eq, AList.lookup_insert]
      · rw [dlookup_cons_ne _ _ hk, AList.lookup_insert_ne hk]
  exact key src.entries m src.nodupKeys

theorem length_keys_insert (m : HashMap κ α) (k : κ) (v : α) : (m.insert k v).keys.length ≤ m.keys.length + 1 := by
  rw [AList.keys_insert, length_cons]
  exact Nat.succ_le_succ erase_sublist.length_le

/-! ## From a list -/

/-- The entries inserted one after the other, onto a map. -/
def insertAll (l : List (κ × α)) (m : HashMap κ α) : HashMap κ α := l.foldl (fun m e => AList.insert e.1 e.2 m) m

theorem insertAll_append (l l' : List (κ × α)) (m : HashMap κ α) : insertAll (l ++ l') m = insertAll l' (insertAll l m) := foldl_append

variable {l : List (κ × α)}

theorem lookup_insertAll_of_notMem {k : κ} (h : k ∉ l.map (·.1)) (m : HashMap κ α) : (insertAll l m).lookup k = m.lookup k := by
  induction l generalizing m with
  | nil => rfl
  | cons e l ih =>
    rw [map_cons, mem_cons, not_or] at h
    rw [insertAll, foldl_cons, ← insertAll, ih h.2, AList.lookup_insert_ne h.1]

/-- With distinct keys every entry is found. -/
theorem lookup_insertAll (hnodup : (l.map (·.1)).Nodup) {k : κ} {v : α} (h : (k, v) ∈ l) (m : HashMap κ α) :
    (insertAll l m).lookup k = some v := by
  induction l generalizing m with
  | nil => cases h
  | cons e l ih =>
    rw [map_cons, nodup_cons] at hnodup
    rw [insertAll, foldl_cons, ← insertAll]
    rcases mem_cons.1 h with rfl | h
    · rw [lookup_insertAll_of_notMem hnodup.1, AList.lookup_insert]
    · exact ih hnodup.2 h _

theorem mem_keys_insertAll {m : HashMap κ α} {k : κ} : k ∈ (insertAll l m).keys ↔ k ∈ m.keys ∨ k ∈ l.map (·.1) := by
  induction l generalizing m with
  | nil => simp [insertAll]
  | cons e l ih =>
    have hinsert : k ∈ (AList.insert e.1 e.2 m).keys ↔ k = e.1 ∨ k ∈ m.keys := by rw [← AList.mem_keys, ← AList.mem_keys, AList.mem_insert]
    rw [insertAll, foldl_cons, ← insertAll, ih, hinsert, map_cons, mem_cons]
    tauto

/-- As many keys as entries: no key came twice. -/
theorem nodup_of_length_keys_insertAll (h : (insertAll l ∅).keys.length = l.length) : (l.map (·.1)).Nodup := by
  have hperm : (insertAll l ∅).keys.Perm (l.map (·.1)).dedup := by
    refine (perm_ext_iff_of_nodup (AList.keys_nodup _) (nodup_dedup _)).2 fun k => ?_
    rw [mem_keys_insertAll, mem_dedup]
    simp
  have hlength : (l.map (·.1)).dedup.length = (l.map (·.1)).length := by rw [← hperm.length_eq, h, length_map]
  rw [← (dedup_sublist (l.map (·.1))).eq_of_length hlength]
  exact nodup_dedup _

theorem length_keys_insertAll (h : (l.map (·.1)).Nodup) : (insertAll l ∅).keys.length = l.length := by
  have hperm : (insertAll l ∅).keys.Perm (l.map (·.1)) := by
    refine (perm_ext_iff_of_nodup (AList.keys_nodup _) h).2 fun k => ?_
    rw [mem_keys_insertAll]
    simp
  rw [hperm.length_eq, length_map]

/-- The values' weights added up. -/
def weight (w : α → ℕ) (m : HashMap κ α) : ℕ := (m.values.map w).sum

theorem weight_erase (w : α → ℕ) (m : HashMap κ α) (k : κ) :
    weight w (m.erase k) + ((m.lookup k).map w).getD 0 = weight w m := by
  have key : ∀ l : List (Sigma fun _ : κ => α),
      (((l.kerase k).map (·.2)).map w).sum + ((List.dlookup k l).map w).getD 0 = ((l.map (·.2)).map w).sum := by
    intro l
    induction l with
    | nil => rfl
    | cons e l ih =>
      obtain ⟨k', v⟩ := e
      by_cases hk : k = k'
      · subst hk
        simp [Nat.add_comm]
      · rw [kerase_cons_ne hk, dlookup_cons_ne _ _ hk]
        simp only [map_cons, sum_cons]
        omega
  exact key m.entries

theorem weight_insert (w : α → ℕ) (m : HashMap κ α) (k : κ) (v : α) : weight w (m.insert k v) = w v + weight w (m.erase k) := rfl

namespace SameUpTo

variable {f : α → β} {m m' : HashMap κ α}

theorem refl (f : α → β) (m : HashMap κ α) : SameUpTo f m m := fun _ => rfl

section

variable (h : SameUpTo f m m')

include h

theorem symm : SameUpTo f m' m := fun k => (h k).symm

theorem mem_iff (k : κ) : k ∈ m ↔ k ∈ m' := by
  rw [← AList.lookup_isSome, ← AList.lookup_isSome, ← Option.isSome_map (f := f), h k, Option.isSome_map]

theorem getD (k : κ) (d : α) : f (m.getD k d) = f (m'.getD k d) := by
  unfold HashMap.getD
  have := h k
  cases hm : m.lookup k <;> cases hm' : m'.lookup k <;> simp_all

/-- A value of one map stands in the other under the same key, up to `f`. -/
theorem exists_value {v : α} (hv : v ∈ m.values) : ∃ v' ∈ m'.values, f v' = f v := by
  obtain ⟨k, hk⟩ := mem_values.1 hv
  have := h k
  rw [hk, Option.map_some] at this
  obtain ⟨v', hk', hf⟩ := Option.map_eq_some_iff.1 this.symm
  exact ⟨v', mem_values.2 ⟨k, hk'⟩, hf⟩

theorem values_perm : (m.values.map f).Perm (m'.values.map f) := by
  have he : (mapValues f m).entries.Perm (mapValues f m').entries := by
    refine lookup_ext (mapValues f m).nodupKeys (mapValues f m').nodupKeys fun k v => ?_
    rw [← AList.lookup, ← AList.lookup, lookup_mapValues, lookup_mapValues, h k]
  simpa only [values, mapValues, map_map, Function.comp_def] using he.map (·.2)

theorem insert (k : κ) {v v' : α} (hv : f v = f v') :
    SameUpTo f (AList.insert k v m) (AList.insert k v' m') := by
  intro k'
  by_cases hk : k' = k
  · subst hk
    rw [AList.lookup_insert, AList.lookup_insert, Option.map_some, Option.map_some, hv]
  · rw [AList.lookup_insert_ne hk, AList.lookup_insert_ne hk, h k']

theorem erase (k : κ) : SameUpTo f (m.erase k) (m'.erase k) := by
  intro k'
  by_cases hk : k' = k
  · subst hk; rw [AList.lookup_erase, AList.lookup_erase]
  · rw [AList.lookup_erase_ne hk, AList.lookup_erase_ne hk, h k']

end

end SameUpTo

end HashMap

/-! ## Hash sets

A hash set is a list without duplicates; the order of its items stands for an
iteration order, which no caller may rely on. -/

structure HashSet (α : Type) where
  items : List α
  nodup : items.Nodup

namespace HashSet

variable {α : Type} [DecidableEq α]

def empty : HashSet α := ⟨[], List.nodup_nil⟩

def len (s : HashSet α) : ℕ := s.items.length

def insert (s : HashSet α) (a : α) : HashSet α :=
  if h : a ∈ s.items then s else ⟨a :: s.items, List.nodup_cons.2 ⟨h, s.nodup⟩⟩

def toFinset (s : HashSet α) : Finset α := s.items.toFinset

variable {s : HashSet α} {a : α}

@[simp] theorem mem_toFinset : a ∈ s.toFinset ↔ a ∈ s.items := List.mem_toFinset

@[simp] theorem card_toFinset (s : HashSet α) : s.toFinset.card = s.len := toFinset_card_of_nodup s.nodup

@[simp] theorem toFinset_empty : (empty : HashSet α).toFinset = ∅ := rfl

theorem toFinset_insert (s : HashSet α) (a : α) : (s.insert a).toFinset = Insert.insert a s.toFinset := by
  ext b
  unfold insert
  split_ifs with h
  · simp only [mem_toFinset, Finset.mem_insert]
    exact ⟨.inr, fun hb => hb.elim (fun heq => heq ▸ h) id⟩
  · simp [toFinset]

theorem mem_insert {b : α} : b ∈ (s.insert a).items ↔ b = a ∨ b ∈ s.items := by
  rw [← mem_toFinset, toFinset_insert, Finset.mem_insert, mem_toFinset]

theorem len_insert (h : a ∉ s.items) : (s.insert a).len = s.len + 1 := by
  rw [insert, dif_neg h, len, len, length_cons]

theorem insert_of_mem (h : a ∈ s.items) : s.insert a = s := dif_pos h

end HashSet

end FerroDruid.Lib
