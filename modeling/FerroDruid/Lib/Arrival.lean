import FerroDruid.Lib.HashMap
import Mathlib.Data.List.Sort
import Mathlib.Data.List.Induction
/-!
# Keys in the order of their arrival

Lists of keys, each in order, read one after the other: every key stands where it
came first. The keys read are in order only if whatever a list adds comes after
all that was there. Items grouped by a key are folded group by group.
-/

namespace FerroDruid.Lib

open List

section

variable {κ : Type*} {before : κ → κ → Prop} {parts : List (List κ)}

/-- What a part adds comes after all keys of the parts before it. -/
def InOrder (before : κ → κ → Prop) (parts : List (List κ)) : Prop :=
  ∀ pre part post, parts = pre ++ part :: post → ∀ k ∈ part, (∀ p ∈ pre, k ∉ p) → ∀ p ∈ pre, ∀ k' ∈ p, before k' k

theorem inOrder_concat {part : List κ} :
    InOrder before (parts ++ [part]) ↔ InOrder before parts ∧ ∀ k ∈ part, (∀ p ∈ parts, k ∉ p) → ∀ p ∈ parts, ∀ k' ∈ p, before k' k := by
  constructor
  · intro h
    refine ⟨fun pre p post heq => h pre p (post ++ [part]) (by rw [heq, append_assoc, cons_append]), h parts part [] rfl⟩
  · rintro ⟨hparts, hlast⟩ pre p post heq
    rcases eq_nil_or_concat post with rfl | ⟨post, last, rfl⟩
    · obtain ⟨rfl, hp⟩ := append_inj' heq rfl
      obtain rfl : part = p := by simpa using hp
      exact hlast
    · have hsplit : parts ++ [part] = (pre ++ p :: post) ++ [last] := by simpa using heq
      exact hparts pre p post (append_inj' hsplit rfl).1

variable [DecidableEq κ]

/-- The keys of a part that are new come last. -/
def addNew (seen part : List κ) : List κ := seen ++ part.filter (· ∉ seen)

/-- The keys in the order of their arrival. -/
def arrival (parts : List (List κ)) : List κ := parts.foldl addNew []

theorem arrival_concat (parts : List (List κ)) (part : List κ) : arrival (parts ++ [part]) = addNew (arrival parts) part := by
  rw [arrival, foldl_append]
  rfl

theorem mem_arrival {k : κ} : k ∈ arrival parts ↔ ∃ part ∈ parts, k ∈ part := by
  induction parts using List.reverseRecOn with
  | nil => simp [arrival]
  | append_singleton parts part ih =>
    rw [arrival_concat, addNew, mem_append, ih]
    by_cases hseen : ∃ part ∈ parts, k ∈ part
    · simp only [hseen, true_or, true_iff]
      obtain ⟨part', hpart', hk⟩ := hseen
      exact ⟨part', mem_append_left _ hpart', hk⟩
    · have hnot : k ∉ arrival parts := fun hk => hseen (ih.1 hk)
      simp [hseen, hnot, mem_append, or_and_right, exists_or]

/-- The keys come in order exactly if every part adds to the end. -/
theorem pairwise_arrival_iff (hparts : ∀ part ∈ parts, part.Pairwise before) : (arrival parts).Pairwise before ↔ InOrder before parts := by
  induction parts using List.reverseRecOn with
  | nil =>
    simp only [arrival, foldl_nil, List.Pairwise.nil, true_iff]
    rintro pre part post heq
    simp at heq
  | append_singleton parts part ih =>
    rw [arrival_concat, addNew, pairwise_append, inOrder_concat, ih fun p hp => hparts p (mem_append_left _ hp)]
    have hpart : (part.filter (· ∉ arrival parts)).Pairwise before :=
      (hparts part (mem_append_right _ (mem_singleton_self _))).filter _
    have hnew : ∀ k, k ∉ arrival parts ↔ ∀ p ∈ parts, k ∉ p := fun k => by
      rw [mem_arrival]
      simp
    refine and_congr_right fun _ => ⟨fun h k hk hfresh p hp k' hk' => ?_, fun h => ⟨hpart, fun k' hk' k hk => ?_⟩⟩
    · exact h.2 k' (mem_arrival.2 ⟨p, hp, hk'⟩) k (mem_filter.2 ⟨hk, decide_eq_true ((hnew k).2 hfresh)⟩)
    · obtain ⟨p, hp, hk'⟩ := mem_arrival.1 hk'
      obtain ⟨hk, hfresh⟩ := mem_filter.1 hk
      exact h k hk ((hnew k).1 (of_decide_eq_true hfresh)) p hp k' hk'

/-- The keys are those of a list in order exactly if the parts have its keys and
every part adds to the end. -/
theorem arrival_eq_iff [Std.Irrefl before] [Std.Asymm before] {whole : List κ} (hwhole : whole.Pairwise before)
    (hparts : ∀ part ∈ parts, part.Pairwise before) :
    arrival parts = whole ↔ InOrder before parts ∧ ∀ k, k ∈ whole ↔ ∃ part ∈ parts, k ∈ part := by
  rw [← pairwise_arrival_iff hparts]
  constructor
  · rintro rfl
    exact ⟨hwhole, fun k => mem_arrival⟩
  · rintro ⟨hsorted, hmem⟩
    exact hsorted.eq_of_mem_iff hwhole fun k => mem_arrival.trans (hmem k).symm

/-- Every key once, where it came first. -/
def firsts (ks : List κ) : List κ := ks.foldl (fun seen k => if k ∈ seen then seen else seen ++ [k]) []

variable (ks : List κ)

theorem firsts_concat (k : κ) : firsts (ks ++ [k]) = if k ∈ firsts ks then firsts ks else firsts ks ++ [k] := by
  rw [firsts, foldl_append]
  rfl

theorem mem_firsts {ks : List κ} {k : κ} : k ∈ firsts ks ↔ k ∈ ks := by
  induction ks using List.reverseRecOn generalizing k with
  | nil => rfl
  | append_singleton ks k' ih =>
    rw [firsts_concat, mem_append, mem_singleton]
    split_ifs with hseen
    · rw [ih]
      exact ⟨.inl, fun h => h.elim id fun h => h ▸ ih.1 hseen⟩
    · rw [mem_append, mem_singleton, ih]

theorem nodup_firsts : (firsts ks).Nodup := by
  induction ks using List.reverseRecOn with
  | nil => exact nodup_nil
  | append_singleton ks k ih =>
    rw [firsts_concat]
    split_ifs with hseen
    · exact ih
    · exact nodup_append.2 ⟨ih, nodup_singleton k, fun a ha b hb hab => hseen (mem_singleton.1 hb ▸ hab ▸ ha)⟩

theorem length_firsts_le : (firsts ks).length ≤ ks.length := by
  induction ks using List.reverseRecOn with
  | nil => rfl
  | append_singleton ks k ih =>
    rw [firsts_concat, length_append, length_singleton]
    split_ifs
    · omega
    · rw [length_append, length_singleton]
      omega

/-- Parts without a key twice come in the order of their arrival. -/
theorem firsts_flatten (hparts : ∀ part ∈ parts, part.Nodup) : firsts parts.flatten = arrival parts := by
  have hpart : ∀ (part seen : List κ), part.Nodup → part.foldl (fun seen k => if k ∈ seen then seen else seen ++ [k]) seen = addNew seen part := by
    intro part
    induction part with
    | nil => exact fun seen _ => (append_nil seen).symm
    | cons k part ih =>
      intro seen hnodup
      obtain ⟨hk, hnodup⟩ := nodup_cons.1 hnodup
      rw [foldl_cons, ih _ hnodup]
      unfold addNew
      split_ifs with hseen
      · rw [filter_cons_of_neg (by simpa using hseen)]
      · rw [filter_cons_of_pos (by simpa using hseen), append_assoc]
        refine congrArg (seen ++ k :: ·) (filter_congr fun k' hk' => ?_)
        have hne : k' ≠ k := fun h => hk (h ▸ hk')
        simp [hne]
  suffices h : ∀ seen, parts.flatten.foldl (fun seen k => if k ∈ seen then seen else seen ++ [k]) seen = parts.foldl addNew seen from h []
  induction parts with
  | nil => exact fun _ => rfl
  | cons part parts ih =>
    intro seen
    rw [flatten_cons, foldl_append, hpart _ _ (hparts part (mem_cons_self ..)), foldl_cons]
    exact ih (fun p hp => hparts p (mem_cons_of_mem _ hp)) _

theorem firsts_map_of_injOn {ι : Type*} [DecidableEq ι] {f : κ → ι} {ks : List κ} (hf : ∀ a ∈ ks, ∀ b ∈ ks, f a = f b → a = b) :
    firsts (ks.map f) = (firsts ks).map f := by
  induction ks using List.reverseRecOn with
  | nil => rfl
  | append_singleton ks k ih =>
    have hks : ∀ a ∈ ks, a ∈ ks ++ [k] := fun a ha => mem_append_left _ ha
    have hmem : f k ∈ (firsts ks).map f ↔ k ∈ firsts ks := by
      refine ⟨fun h => ?_, mem_map_of_mem⟩
      obtain ⟨k', hk', heq⟩ := mem_map.1 h
      exact hf k' (hks k' (mem_firsts.1 hk')) k (by simp) heq ▸ hk'
    rw [map_append, map_singleton, firsts_concat, firsts_concat, ih fun a ha b hb => hf a (hks a ha) b (hks b hb)]
    simp only [hmem]
    split_ifs <;> simp

theorem firsts_map {ι : Type*} [DecidableEq ι] {f : κ → ι} (hf : Function.Injective f) (ks : List κ) : firsts (ks.map f) = (firsts ks).map f :=
  firsts_map_of_injOn fun _ _ _ _ h => hf h

/-- As many keys after a map as before: none were made the same. -/
theorem eq_of_length_firsts {ι : Type*} [DecidableEq ι] {f : κ → ι} {ks : List κ} (h : (firsts (ks.map f)).length = (firsts ks).length) :
    ∀ a ∈ ks, ∀ b ∈ ks, f a = f b → a = b := by
  have hperm : (firsts (ks.map f)).Perm ((firsts ks).map f).dedup :=
    (perm_ext_iff_of_nodup (nodup_firsts _) (nodup_dedup _)).2 fun k => by simp [mem_firsts]
  have hsame : ((firsts ks).map f).dedup = (firsts ks).map f :=
    (dedup_sublist _).eq_of_length (by rw [← hperm.length_eq, h, length_map])
  exact fun a ha b hb => inj_on_of_nodup_map (dedup_eq_self.1 hsame) (mem_firsts.2 ha) (mem_firsts.2 hb)

/-! ## Entries -/

variable {β : Type*}

/-- An entry is merged into the one of its key, or comes last. -/
def upsert (merge : β → β → β) (init : β) (entries : List (κ × β)) (entry : κ × β) : List (κ × β) :=
  if entry.1 ∈ entries.map (·.1) then entries.map fun e => if e.1 = entry.1 then (e.1, merge e.2 entry.2) else e
  else entries ++ [(entry.1, merge init entry.2)]

/-- Entries merged one by one: every key once, with its values merged in their order. -/
theorem foldl_upsert (merge : β → β → β) (init : β) (entries : List (κ × β)) :
    entries.foldl (upsert merge init) [] =
      (firsts (entries.map (·.1))).map fun k => (k, ((entries.filter (·.1 = k)).map (·.2)).foldl merge init) := by
  induction entries using List.reverseRecOn with
  | nil => rfl
  | append_singleton entries entry ih =>
    obtain ⟨k, v⟩ := entry
    have hvalue : ∀ k', (((entries ++ [(k, v)]).filter (·.1 = k')).map (·.2)).foldl merge init =
        if k' = k then merge (((entries.filter (·.1 = k')).map (·.2)).foldl merge init) v
        else ((entries.filter (·.1 = k')).map (·.2)).foldl merge init := fun k' => by
      by_cases hk : k' = k
      · subst hk
        simp
      · simp [hk, Ne.symm hk]
    rw [foldl_append, foldl_cons, foldl_nil, ih, upsert, map_append, map_singleton, firsts_concat]
    have hkeys : ((firsts (entries.map (·.1))).map fun k => (k, ((entries.filter (·.1 = k)).map (·.2)).foldl merge init)).map (·.1) =
        firsts (entries.map (·.1)) := by
      rw [map_map]
      exact map_id _
    rw [hkeys]
    simp only [hvalue]
    split_ifs with hseen
    · rw [map_map]
      refine map_congr_left fun k' _ => ?_
      by_cases hk : k' = k
      · simp [hk]
      · simp [hk]
    · rw [map_append, map_singleton]
      have hnone : entries.filter (·.1 = k) = [] := by
        rw [filter_eq_nil_iff]
        intro e he hek
        exact hseen (mem_firsts.2 (mem_map.2 ⟨e, he, of_decide_eq_true hek⟩))
      congr 1
      · refine map_congr_left fun k' hk' => ?_
        have hne : k' ≠ k := fun h => hseen (h ▸ hk')
        rw [if_neg hne]
      · simp [hnone]

end

/-! ## Classes -/

section

variable {α κ ι : Type*} [DecidableEq κ] [DecidableEq ι]

/-- The items of each key, in the order of the keys' arrival. -/
def classes (f : α → κ) (l : List α) : List (List α) := (firsts (l.map f)).map fun k => l.filter (f · = k)

variable {f : α → κ} {g : α → ι} {l : List α}

theorem same_of_classes_eq (h : classes f l = classes g l) {a b : α} (ha : a ∈ l) (hb : b ∈ l) (hab : f a = f b) : g a = g b := by
  have hclass : l.filter (f · = f a) ∈ classes g l := h ▸ mem_map_of_mem (mem_firsts.2 (mem_map_of_mem ha))
  obtain ⟨k, -, hk⟩ := mem_map.1 hclass
  have hin : ∀ c ∈ l, f c = f a → g c = k := fun c hc hca => by
    have hmem : c ∈ l.filter (g · = k) := hk ▸ mem_filter.2 ⟨hc, decide_eq_true hca⟩
    exact of_decide_eq_true (mem_filter.1 hmem).2
  rw [hin a ha rfl, hin b hb hab.symm]

/-- Two keys make the same classes exactly if they tell the same items apart. -/
theorem classes_eq_iff : classes f l = classes g l ↔ ∀ a ∈ l, ∀ b ∈ l, f a = f b ↔ g a = g b := by
  constructor
  · exact fun h a ha b hb => ⟨same_of_classes_eq h ha hb, same_of_classes_eq h.symm ha hb⟩
  · intro h
    cases hl : l with
    | nil => rfl
    | cons first rest =>
      rw [← hl]
      -- the keys of one kind are those of the other under a map
      obtain ⟨φ, hφ⟩ : ∃ φ : κ → ι, ∀ a ∈ l, φ (f a) = g a := by
        refine ⟨fun k => ((l.find? (f · = k)).map g).getD (g first), fun a ha => ?_⟩
        cases hfind : l.find? (f · = f a) with
        | none => exact absurd (find?_eq_none.1 hfind a ha) (by simp)
        | some b =>
          have hb : f b = f a := by simpa using find?_some hfind
          simp only [hfind, Option.map_some, Option.getD_some]
          exact (h b (mem_of_find?_eq_some hfind) a ha).1 hb
      have hinj : ∀ k ∈ l.map f, ∀ k' ∈ l.map f, φ k = φ k' → k = k' := by
        rintro _ hk _ hk' heq
        obtain ⟨a, ha, rfl⟩ := mem_map.1 hk
        obtain ⟨b, hb, rfl⟩ := mem_map.1 hk'
        rw [hφ a ha, hφ b hb] at heq
        exact (h a ha b hb).2 heq
      have hmap : l.map g = (l.map f).map φ := by
        rw [map_map]
        exact map_congr_left fun a ha => (hφ a ha).symm
      rw [classes, classes, hmap, firsts_map_of_injOn hinj, map_map]
      refine map_congr_left fun k hk => filter_congr fun a ha => ?_
      have hkey := mem_firsts.1 hk
      rw [decide_eq_decide, ← hφ a ha]
      exact ⟨fun hak => hak ▸ rfl, fun hak => hinj _ (mem_map_of_mem ha) _ hkey hak⟩

theorem classes_congr {f' : α → κ} (h : ∀ a ∈ l, f a = f' a) : classes f l = classes f' l :=
  classes_eq_iff.2 fun a ha b hb => by rw [h a ha, h b hb]

theorem classes_map {β : Type*} (f : β → κ) (g : α → β) (l : List α) : classes f (l.map g) = (classes (fun a => f (g a)) l).map (List.map g) := by
  rw [classes, classes, map_map, map_map]
  refine map_congr_left fun k _ => ?_
  rw [Function.comp_apply, filter_map]
  rfl

/-- Items merged under their keys are merged class by class. -/
theorem foldl_upsert_classes {β : Type*} (merge : β → β → β) (init : β) (value : α → β) :
    ((l.map fun a => (f a, value a)).foldl (upsert merge init) []).map (·.2) = (classes f l).map fun c => (c.map value).foldl merge init := by
  rw [foldl_upsert, map_map, classes, map_map, map_map]
  refine map_congr_left fun k _ => ?_
  simp only [Function.comp_apply, filter_map, map_map]
  rfl

end

/-! ## Groups -/

section

variable {α κ σ : Type} [DecidableEq κ]

/-- The loop that feeds each item into the state of its group. -/
def groupFold (key : α → κ) (init : α → σ) (feed : σ → α → σ) (items : List α) (m : HashMap κ σ) : HashMap κ σ :=
  items.foldl (fun m a => AList.insert (key a) (feed (m.getD (key a) (init a)) a) m) m

variable (key : α → κ) (init : α → σ) (feed : σ → α → σ) (items : List α)

theorem lookup_groupFold (m : HashMap κ σ) (k : κ) : (groupFold key init feed items m).lookup k =
      match items.filter (key · = k) with
      | [] => m.lookup k
      | a :: group => some ((a :: group).foldl feed (m.getD k (init a))) := by
  induction items generalizing m with
  | nil => rfl
  | cons a items ih =>
    rw [groupFold, foldl_cons, ← groupFold, ih]
    by_cases hk : key a = k
    · subst hk
      rw [filter_cons_of_pos (by simp)]
      cases items.filter (key · = key a) with
      | nil => simp
      | cons b group => simp
    · rw [filter_cons_of_neg (by simpa using hk), AList.lookup_insert_ne (Ne.symm hk)]
      simp only [HashMap.getD_insert_of_ne (Ne.symm hk)]

theorem lookup_groupFold_empty (k : κ) : (groupFold key init feed items ∅).lookup k =
      match items.filter (key · = k) with
      | [] => none
      | a :: group => some ((a :: group).foldl feed (init a)) := lookup_groupFold ..

/-- The keys of groups are the keys of the items. -/
theorem mem_keys_groupFold (k : κ) :
    k ∈ (groupFold key init feed items ∅).keys ↔ k ∈ items.map key := by
  rw [← AList.mem_keys, ← AList.lookup_isSome, lookup_groupFold_empty, mem_map]
  cases hgroup : items.filter (key · = k) with
  | nil =>
    rw [filter_eq_nil_iff] at hgroup
    simp only [Option.isSome_none, Bool.false_eq_true, false_iff, not_exists, not_and]
    exact fun a ha hk => hgroup a ha (decide_eq_true hk)
  | cons a group =>
    have ha : a ∈ items.filter (key · = k) := hgroup ▸ mem_cons_self ..
    simp only [Option.isSome_some, true_iff]
    exact ⟨a, (mem_filter.1 ha).1, of_decide_eq_true (mem_filter.1 ha).2⟩

theorem keys_groupFold_perm : (groupFold key init feed items ∅).keys.Perm (firsts (items.map key)) :=
  (perm_ext_iff_of_nodup (AList.keys_nodup _) (nodup_firsts _)).2 fun k => by rw [mem_keys_groupFold, mem_firsts]

end

end FerroDruid.Lib
