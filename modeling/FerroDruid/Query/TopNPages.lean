import FerroDruid.Lib.Pagination
import FerroDruid.Query.MultiValueGroupBy
import FerroDruid.Query.TopNGroups
/-!
# Pages of a TopN query

A query ordered by its dimension is sent again and again, each time with the
sort key of the last entry as `previousStop`, until a page is empty. Each time
the entries come out of a hash map and are sorted anew.
-/

namespace FerroDruid.Query

open Lib List

variable {τ : Type} (ordering : Option String) (threshold : ℕ)

/-- The entries of all pages. The `i`th page is of the entries as sorted at the
`i`th time. -/
def pagesFrom (arrange : ℕ → List (TopNEntry τ)) : ℕ → ℕ → Option Bytes → Option (List (TopNEntry τ))
  | 0, _, _ => none
  | fuel + 1, i, stop =>
    let page := pageOf (.dimension ordering stop) threshold (arrange i)
    match page.getLast? with
    | none => some []
    | some last => (pagesFrom arrange fuel (i + 1) (some last.sortKey)).map (page ++ ·)

/-- However the entries are arranged each time, the pages end and list every
entry once, in order. -/
def PagesListAll (entries : List (TopNEntry τ)) : Prop :=
  ∀ arrange : ℕ → List (TopNEntry τ), (∀ i, SortsTo (.dimension ordering none) entries (arrange i)) →
    ∃ fuel listing, pagesFrom ordering threshold arrange fuel 0 none = some listing ∧ listing.Perm entries ∧
      listing.Pairwise fun a b => compareDimension (isNumeric ordering) a b ≠ .gt

/-- Ordered as numbers, all keys are numbers, and none is a NaN beside two
different ones; and no page ends between two equal keys: no multiple of the
threshold lies between the numbers of keys before and of keys up to one. -/
structure Pageable (numeric : Bool) (keys : List Bytes) : Prop where
  numbers : numeric = true → ∀ key ∈ keys, (parseF64 key).isSome = true
  nans : numeric = true → ∀ key ∈ keys, parseF64 key = some .nan → ∀ a ∈ keys, ∀ b ∈ keys, compareSortKeys numeric a b = .eq
  ties : ¬ ∃ key ∈ keys, ∃ pages : ℕ, keys.countP (compareSortKeys numeric · key = .lt) < pages * threshold ∧
    pages * threshold < keys.countP (compareSortKeys numeric · key ≠ .gt)

/-! ## Comparisons -/

instance : Std.TransCmp compareText := inferInstanceAs (Std.TransCmp (List.compareLex compareBytes))

theorem compareText_swap (a b : Bytes) : compareText a b = (compareText b a).swap := Std.OrientedCmp.eq_swap

theorem compareText_trans {a b c : Bytes} (hab : compareText a b ≠ .gt) (hbc : compareText b c ≠ .gt) : compareText a c ≠ .gt := by
  have hle : ∀ {o : Ordering}, o ≠ .gt ↔ o.isLE = true := fun {o} => by cases o <;> simp
  rw [hle] at *
  exact Std.TransCmp.isLE_trans hab hbc

theorem partialCmp_swap (x y : F64) : partialCmp x y = (partialCmp y x).swap := by
  unfold partialCmp
  cases x.rank <;> cases y.rank
  case some.some a b => exact @Std.OrientedCmp.eq_swap ℤ compare _ a b
  all_goals rfl

theorem partialCmp_trans {x y z : F64} (hy : y.rank ≠ none) (hxy : partialCmp x y ≠ .gt) (hyz : partialCmp y z ≠ .gt) :
    partialCmp x z ≠ .gt := by
  unfold partialCmp at *
  cases hx : x.rank <;> cases hy' : y.rank <;> cases hz : z.rank <;> simp_all
  rw [compare_gt_iff_gt] at *
  omega

theorem partialCmp_nan_left (y : F64) : partialCmp .nan y = .eq := rfl

theorem lt_eq_partialCmp (x y : F64) : F64.lt x y = decide (partialCmp x y = .lt) := by
  unfold F64.lt partialCmp
  cases x.rank <;> cases y.rank <;> simp [compare_lt_iff_lt]

theorem rank_eq_none_iff {x : F64} : x.rank = none ↔ x = .nan := by cases x <;> simp [F64.rank]

/-- The comparison is a proper one, but for a NaN beside two different numbers. -/
theorem proper_iff_nans (numeric : Bool) (keys : List Bytes) (hnumbers : numeric = true → ∀ key ∈ keys, (parseF64 key).isSome = true) :
    Proper (compareSortKeys numeric) keys ↔
      (numeric = true → ∀ key ∈ keys, parseF64 key = some .nan → ∀ a ∈ keys, ∀ b ∈ keys, compareSortKeys numeric a b = .eq) := by
  cases numeric with
  | false => exact iff_of_true ⟨fun a _ b _ => compareText_swap a b, fun a _ b _ c _ => compareText_trans⟩ (by simp)
  | true =>
    have hswap : ∀ a b, compareSortKeys true a b = (compareSortKeys true b a).swap := fun a b => partialCmp_swap _ _
    constructor
    · intro h _ key hkey hnan a ha b hb
      have hkeyeq : ∀ c, compareSortKeys true key c = .eq := fun c => by
        rw [compareSortKeys, if_pos rfl, hnan]
        exact partialCmp_nan_left _
      have hle : ∀ a ∈ keys, ∀ b ∈ keys, compareSortKeys true a b ≠ .gt := fun a ha b hb =>
        h.trans a ha key hkey b hb (by rw [hswap, hkeyeq]; simp) (by rw [hkeyeq]; simp)
      have hba := hle b hb a ha
      rw [hswap] at hba
      cases hcmp : compareSortKeys true a b with
      | eq => rfl
      | lt => exact absurd (congrArg Ordering.swap hcmp) hba
      | gt => exact absurd hcmp (hle a ha b hb)
    · intro h
      refine ⟨fun a _ b _ => hswap a b, fun a ha b hb c hc hab hbc => ?_⟩
      cases hnan : parseF64 b with
      | none =>
        have hsome := hnumbers rfl b hb
        rw [hnan] at hsome
        cases hsome
      | some y =>
        by_cases hy : y = .nan
        · rw [h rfl b hb (by rw [hnan, hy]) a ha c hc]
          simp
        · refine partialCmp_trans (y := (parseF64 b).getD (.zero false)) ?_ hab hbc
          rw [hnan, Option.getD_some, ne_eq, rank_eq_none_iff]
          exact hy

/-! ## A page -/

theorem pastStop_eq {numeric : Bool} {stop key : Bytes} (hstop : numeric = true → (parseF64 stop).isSome = true)
    (hkey : numeric = true → (parseF64 key).isSome = true) : pastStop numeric stop key = decide (compareSortKeys numeric stop key = .lt) := by
  cases numeric with
  | false => rfl
  | true =>
    obtain ⟨s, hs⟩ := Option.isSome_iff_exists.1 (hstop rfl)
    obtain ⟨k, hk⟩ := Option.isSome_iff_exists.1 (hkey rfl)
    simp only [pastStop, compareSortKeys, hs, hk, if_pos, Option.getD_some, lt_eq_partialCmp]

/-- What is no number is on every page. -/
theorem pastStop_of_not_number {stop key : Bytes} (hkey : parseF64 key = none) : pastStop true stop key = true := by
  simp only [pastStop, if_pos, hkey]
  cases parseF64 stop <;> rfl

theorem mem_applyPreviousStop {stop : Option Bytes} {entries : List (TopNEntry τ)} {e : TopNEntry τ} :
    e ∈ applyPreviousStop (.dimension ordering stop) entries ↔ e ∈ entries ∧ ∀ s ∈ stop, pastStop (isNumeric ordering) s e.sortKey = true := by
  cases stop with
  | none => simp [applyPreviousStop]
  | some s => simp [applyPreviousStop]

variable {ordering threshold} {entries : List (TopNEntry τ)} {arrange : ℕ → List (TopNEntry τ)}

/-- The first page is in front of the others. -/
theorem pagesFrom_eq_append {fuel i : ℕ} {stop : Option Bytes} {listing : List (TopNEntry τ)}
    (h : pagesFrom ordering threshold arrange fuel i stop = some listing) :
    ∃ rest, listing = pageOf (.dimension ordering stop) threshold (arrange i) ++ rest := by
  cases fuel with
  | zero => cases h
  | succ fuel =>
    simp only [pagesFrom] at h
    split at h
    case h_1 hlast =>
      cases h
      exact ⟨[], by rw [getLast?_eq_none_iff.1 hlast, append_nil]⟩
    case h_2 last hlast =>
      obtain ⟨rest, -, rfl⟩ := Option.map_eq_some_iff.1 h
      exact ⟨rest, rfl⟩

/-- An entry that no cursor passes keeps the pages coming. -/
theorem pagesFrom_eq_none (hsize : 0 < threshold) {e : TopNEntry τ} (he : ∀ i, e ∈ arrange i)
    (hpast : ∀ stop, pastStop (isNumeric ordering) stop e.sortKey = true) (fuel i : ℕ) (stop : Option Bytes) :
    pagesFrom ordering threshold arrange fuel i stop = none := by
  induction fuel generalizing i stop with
  | zero => rfl
  | succ fuel ih =>
    have hpage : pageOf (.dimension ordering stop) threshold (arrange i) ≠ [] := by
      have hin : e ∈ applyPreviousStop (.dimension ordering stop) (arrange i) :=
        (mem_applyPreviousStop ordering).2 ⟨he i, fun s _ => hpast s⟩
      rw [pageOf, ne_eq, take_eq_nil_iff, not_or]
      exact ⟨by omega, ne_nil_of_mem hin⟩
    simp only [pagesFrom]
    split
    case h_1 hlast => exact absurd (getLast?_eq_none_iff.1 hlast) hpage
    case h_2 last _ => rw [ih, Option.map_none]

/-! ## All pages -/

section

variable (hproper : Proper (compareDimension (isNumeric ordering)) entries)
include hproper

theorem cutsTie_iff :
    Pagination.CutsTie (rankIn (compareDimension (isNumeric ordering)) entries) threshold entries ↔
      ∃ key ∈ entries.map (·.sortKey), ∃ pages : ℕ,
        (entries.map (·.sortKey)).countP (compareSortKeys (isNumeric ordering) · key = .lt) < pages * threshold ∧
          pages * threshold < (entries.map (·.sortKey)).countP (compareSortKeys (isNumeric ordering) · key ≠ .gt) := by
  have hlt : ∀ e ∈ entries, entries.countP (fun x => rankIn (compareDimension (isNumeric ordering)) entries x <
      rankIn (compareDimension (isNumeric ordering)) entries e) =
      (entries.map (·.sortKey)).countP (compareSortKeys (isNumeric ordering) · e.sortKey = .lt) := fun e he => by
    rw [countP_map]
    refine countP_congr fun x hx => ?_
    simp only [hproper.rankIn_lt_iff hx he, Function.comp_apply]
    rfl
  have hle : ∀ e ∈ entries, entries.countP (fun x => rankIn (compareDimension (isNumeric ordering)) entries x ≤
      rankIn (compareDimension (isNumeric ordering)) entries e) =
      (entries.map (·.sortKey)).countP (compareSortKeys (isNumeric ordering) · e.sortKey ≠ .gt) := fun e he => by
    rw [countP_map]
    refine countP_congr fun x hx => ?_
    simp only [hproper.rankIn_le_iff hx he, Function.comp_apply]
    rfl
  constructor
  · rintro ⟨e, he, hcut⟩
    rw [hlt e he, hle e he] at hcut
    exact ⟨e.sortKey, mem_map_of_mem he, hcut⟩
  · rintro ⟨_, hkey, hcut⟩
    obtain ⟨e, he, rfl⟩ := mem_map.1 hkey
    refine ⟨e, he, ?_⟩
    rw [hlt e he, hle e he]
    exact hcut

variable (hnumbers : isNumeric ordering = true → ∀ key ∈ entries.map (·.sortKey), (parseF64 key).isSome = true)
include hnumbers

/-- With a proper comparison the cursor is one of ranks. -/
theorem pagesFrom_eq_paginate (harrange : ∀ i, SortsTo (.dimension ordering none) entries (arrange i)) (fuel i : ℕ)
    (stop : Option (TopNEntry τ)) (hstop : ∀ s ∈ stop, s ∈ entries) :
    pagesFrom ordering threshold arrange fuel i (stop.map (·.sortKey)) =
      Pagination.paginate (rankIn (compareDimension (isNumeric ordering)) entries) threshold arrange fuel i stop := by
  have hpage : ∀ i (stop : Option (TopNEntry τ)), (∀ s ∈ stop, s ∈ entries) →
      pageOf (.dimension ordering (stop.map (·.sortKey))) threshold (arrange i) =
        Pagination.page (rankIn (compareDimension (isNumeric ordering)) entries) threshold arrange i stop := by
    intro i stop hstop
    rw [pageOf, Pagination.page, Pagination.after]
    congr 1
    cases stop with
    | none => simp [applyPreviousStop]
    | some s =>
      refine filter_congr fun e he => ?_
      have hs := hstop s rfl
      have hin := (harrange i).perm.mem_iff.1 he
      rw [pastStop_eq (fun h => hnumbers h _ (mem_map_of_mem hs)) fun h => hnumbers h _ (mem_map_of_mem hin)]
      simp only [Option.all_some, hproper.rankIn_lt_iff hs hin]
      rfl
  induction fuel generalizing i stop with
  | zero => rfl
  | succ fuel ih =>
    rw [pagesFrom, Pagination.paginate, hpage i stop hstop]
    cases hlast : (Pagination.page (rankIn (compareDimension (isNumeric ordering)) entries) threshold arrange i stop).getLast? with
    | none => rfl
    | some last =>
      have hin : last ∈ entries := by
        have hpast := mem_of_mem_take (mem_of_getLast? hlast)
        exact (harrange i).perm.mem_iff.1 (mem_filter.1 hpast).1
      have hnext := ih (i + 1) (some last) (by rintro s ⟨⟩; exact hin)
      rw [Option.map_some] at hnext
      simp only [hnext]

/-- The pages end, and list what they should unless one cuts a tie. -/
theorem pagesFrom_lists (hsize : 0 < threshold) (harrange : ∀ i, SortsTo (.dimension ordering none) entries (arrange i)) :
    ∃ enough, ∀ fuel ≥ enough, ∃ listing, pagesFrom ordering threshold arrange fuel 0 none = some listing ∧
      Pagination.Lists (rankIn (compareDimension (isNumeric ordering)) entries) threshold entries listing := by
  have hsorted : ∀ i, (arrange i).Perm entries ∧ (arrange i).Pairwise fun a b =>
      rankIn (compareDimension (isNumeric ordering)) entries a ≤ rankIn (compareDimension (isNumeric ordering)) entries b := fun i => by
    have hperm := (harrange i).perm
    refine ⟨hperm, ((harrange i).sorted hproper).imp_of_mem fun {a b} ha hb hab => ?_⟩
    exact (hproper.rankIn_le_iff (hperm.mem_iff.1 ha) (hperm.mem_iff.1 hb)).2 hab
  obtain ⟨enough, hrun⟩ := Pagination.paginate_from hsize hsorted entries.length 0 none (length_filter_le _ _)
  refine ⟨enough, fun fuel hfuel => ?_⟩
  obtain ⟨listing, hlisting, hlists⟩ := hrun fuel hfuel
  refine ⟨listing, (pagesFrom_eq_paginate hproper hnumbers harrange fuel 0 none (by simp)).trans hlisting, ?_⟩
  have hall : Pagination.after (rankIn (compareDimension (isNumeric ordering)) entries) none entries = entries := by
    simp [Pagination.after]
  rwa [hall] at hlists

end

/-! ## Where pages fail -/

section

variable (hsize : 0 < threshold)

include hsize

theorem PagesListAll.numbers (h : PagesListAll ordering threshold entries) (hnumeric : isNumeric ordering = true) :
    ∀ key ∈ entries.map (·.sortKey), (parseF64 key).isSome = true := by
  rintro _ hkey
  obtain ⟨e, he, rfl⟩ := mem_map.1 hkey
  by_contra hcon
  rw [Option.not_isSome_iff_eq_none] at hcon
  obtain ⟨sorted, hsorted⟩ := exists_sortedBy (compareDimension (isNumeric ordering)) entries
  obtain ⟨fuel, listing, hrun, -, -⟩ := h (fun _ => sorted) fun _ => hsorted
  have hnone : pagesFrom ordering threshold (fun _ => sorted) fuel 0 none = none :=
    pagesFrom_eq_none hsize (fun _ => hsorted.perm.mem_iff.2 he)
      (fun stop => by rw [hnumeric]; exact pastStop_of_not_number hcon) fuel 0 none
  rw [hnone] at hrun
  cases hrun

/-- Beside a NaN two numbers can come in the wrong order, and no number is past it. -/
theorem not_pagesListAll_beside_nan (hnumeric : isNumeric ordering = true)
    (hnumbers : ∀ e ∈ entries, (parseF64 e.sortKey).isSome = true) (hnot : ¬ Proper (compareDimension (isNumeric ordering)) entries)
    {n a b : TopNEntry τ} {rest : List (TopNEntry τ)} (hperm : (n :: a :: b :: rest).Perm entries)
    (hnan : parseF64 n.sortKey = some .nan) (hab : compareDimension true a b = .gt) : ¬ PagesListAll ordering threshold entries := by
  intro h
  rcases Nat.lt_or_ge 1 threshold with hmore | hone
  · -- both are on the first page
    have hswapped : (a :: b :: n :: rest).Perm (n :: a :: b :: rest) :=
      ((List.Perm.swap n b rest).cons a).trans (.swap n a (b :: rest))
    obtain ⟨fuel, listing, hrun, -, hsorted⟩ := h (fun _ => a :: b :: n :: rest) fun _ => sortedBy_of_not_proper hnot (hswapped.trans hperm)
    obtain ⟨others, rfl⟩ := pagesFrom_eq_append hrun
    obtain ⟨more, rfl⟩ : ∃ more, threshold = more + 2 := ⟨threshold - 2, by omega⟩
    rw [hnumeric] at hsorted
    have hfirst : (a :: b :: (n :: rest).take more).Pairwise fun a b => compareDimension true a b ≠ .gt := (pairwise_append.1 hsorted).1
    exact (pairwise_cons.1 hfirst).1 b mem_cons_self hab
  · -- the NaN is the first page, and the second is empty
    obtain rfl : threshold = 1 := by omega
    obtain ⟨fuel, listing, hrun, hall, -⟩ := h (fun _ => n :: a :: b :: rest) fun _ => sortedBy_of_not_proper hnot hperm
    have hpast : applyPreviousStop (.dimension ordering (some n.sortKey)) (n :: a :: b :: rest) = [] := by
      refine filter_eq_nil_iff.2 fun e he hpast => ?_
      rw [hnumeric, pastStop_eq (fun _ => by rw [hnan]; rfl) fun _ => hnumbers e (hperm.mem_iff.1 he)] at hpast
      rw [compareSortKeys, if_pos rfl, hnan, Option.getD_some, partialCmp_nan_left] at hpast
      cases hpast
    have hlen : listing.length ≤ 1 := by
      match fuel, hrun with
      | 0, hrun => cases hrun
      | 1, hrun => cases hrun
      | fuel + 2, hrun =>
        have hfirst : pageOf (.dimension ordering none) 1 (n :: a :: b :: rest) = [n] := rfl
        have hsecond : pageOf (.dimension ordering (some n.sortKey)) 1 (n :: a :: b :: rest) = [] := by rw [pageOf, hpast, take_nil]
        simp only [pagesFrom, hfirst, hsecond, getLast?_singleton, getLast?_nil, Option.map_some, append_nil] at hrun
        cases hrun
        exact le_rfl
    rw [hall.length_eq, ← hperm.length_eq] at hlen
    simp at hlen

theorem PagesListAll.proper (h : PagesListAll ordering threshold entries) :
    Proper (compareDimension (isNumeric ordering)) entries := by
  by_contra hnot
  have hnumbers := PagesListAll.numbers hsize h
  have hnans := mt (proper_iff_nans _ _ hnumbers).2 (mt (Proper.map_iff (TopNEntry.sortKey (τ := τ))).1 hnot)
  push Not at hnans
  obtain ⟨hnumeric, _, hkey, hnan, _, hka, _, hkb, hne⟩ := hnans
  obtain ⟨n, hn, rfl⟩ := mem_map.1 hkey
  have hswap : ∀ a b : TopNEntry τ, compareDimension true a b = (compareDimension true b a).swap := fun a b => partialCmp_swap _ _
  obtain ⟨a, ha, b, hb, hab⟩ : ∃ a ∈ entries, ∃ b ∈ entries, compareDimension true a b = .gt := by
    obtain ⟨a, ha, rfl⟩ := mem_map.1 hka
    obtain ⟨b, hb, rfl⟩ := mem_map.1 hkb
    rw [hnumeric] at hne
    cases hcmp : compareDimension true a b with
    | eq => exact absurd hcmp hne
    | gt => exact ⟨a, ha, b, hb, hcmp⟩
    | lt => exact ⟨b, hb, a, ha, by rw [hswap, hcmp]; rfl⟩
  -- the three are different entries
  have hnaneq : ∀ e, compareDimension true n e = .eq := fun e => by
    rw [compareDimension, compareSortKeys, if_pos rfl, hnan]
    exact partialCmp_nan_left _
  have hna : a ≠ n := by
    rintro rfl
    rw [hnaneq] at hab
    cases hab
  have hnb : b ≠ n := by
    rintro rfl
    rw [hswap, hnaneq] at hab
    cases hab
  have hba : b ≠ a := by
    rintro rfl
    have hself := hswap b b
    rw [hab] at hself
    cases hself
  obtain ⟨rest, hrest⟩ := exists_perm_cons hn
  obtain ⟨rest', hrest'⟩ := exists_perm_cons (mem_of_ne_of_mem hna (hrest.mem_iff.2 ha))
  have hb' : b ∈ rest' := mem_of_ne_of_mem hba (hrest'.mem_iff.2 (mem_of_ne_of_mem hnb (hrest.mem_iff.2 hb)))
  obtain ⟨rest'', hrest''⟩ := exists_perm_cons hb'
  have hperm : (n :: a :: b :: rest'').Perm entries := (((hrest''.cons a).trans hrest').cons n).trans hrest
  exact not_pagesListAll_beside_nan hsize hnumeric (fun e he => hnumbers hnumeric _ (mem_map_of_mem he)) hnot hperm hnan hab h

theorem PagesListAll.pageable (h : PagesListAll ordering threshold entries) :
    Pageable threshold (isNumeric ordering) (entries.map (·.sortKey)) := by
  have hnumbers := h.numbers hsize
  have hproper := h.proper hsize
  refine ⟨hnumbers, (proper_iff_nans _ _ hnumbers).1 ((Proper.map_iff _).2 hproper), ?_⟩
  obtain ⟨sorted, hsorted⟩ := exists_sortedBy (compareDimension (isNumeric ordering)) entries
  obtain ⟨fuel, listing, hrun, hperm, -⟩ := h (fun _ => sorted) fun _ => hsorted
  have harrange : ∀ _ : ℕ, SortsTo (.dimension ordering none) entries sorted := fun _ => hsorted
  obtain ⟨enough, hlists⟩ := pagesFrom_lists hproper hnumbers hsize harrange
  obtain ⟨listing', hrun', hlists'⟩ := hlists (max enough fuel) (Nat.le_max_left _ _)
  have hpages : ∀ fuel, pagesFrom ordering threshold (fun _ => sorted) fuel 0 none =
      Pagination.paginate (rankIn (compareDimension (isNumeric ordering)) entries) threshold (fun _ => sorted) fuel 0 none :=
    fun fuel => pagesFrom_eq_paginate hproper hnumbers harrange fuel 0 none (by simp)
  have hmore := Pagination.paginate_mono (Nat.le_max_right enough fuel) ((hpages fuel).symm.trans hrun)
  obtain rfl := Option.some.inj (hmore.symm.trans ((hpages _).symm.trans hrun'))
  exact mt (cutsTie_iff hproper).2 (hlists'.perm_iff.1 hperm)

theorem Pageable.pagesListAll (h : Pageable threshold (isNumeric ordering) (entries.map (·.sortKey))) :
    PagesListAll ordering threshold entries := by
  intro arrange harrange
  have hproper := (Proper.map_iff _).1 ((proper_iff_nans _ _ h.numbers).2 h.nans)
  obtain ⟨enough, hrun⟩ := pagesFrom_lists hproper h.numbers hsize harrange
  obtain ⟨listing, hlisting, hlists⟩ := hrun enough le_rfl
  refine ⟨enough, listing, hlisting, hlists.perm_iff.2 (mt (cutsTie_iff hproper).1 h.ties), ?_⟩
  refine hlists.sorted.imp_of_mem fun {a b} ha hb hab => ?_
  exact (hproper.rankIn_le_iff (hlists.mem a ha) (hlists.mem b hb)).1 hab

end

/-- Different texts in the order of texts can be paged. -/
theorem Pageable.of_nodup {keys : List Bytes} (h : keys.Nodup) : Pageable threshold false keys := by
  refine ⟨nofun, nofun, ?_⟩
  rintro ⟨key, -, pages, hlow, hhigh⟩
  have hsplit : keys.countP (compareSortKeys false · key ≠ .gt) ≤ keys.countP (compareSortKeys false · key = .lt) + keys.count key := by
    rw [countP_eq_countP_filter_add keys _ (compareSortKeys false · key = .lt), countP_eq_length_filter (l := keys)]
    refine Nat.add_le_add countP_le_length ?_
    rw [countP_filter]
    refine countP_mono_left fun x _ hx => ?_
    cases hcmp : compareSortKeys false x key with
    | lt => simp [hcmp] at hx
    | gt => simp [hcmp] at hx
    | eq =>
      change List.compareLex compareBytes x key = .eq at hcmp
      exact beq_iff_eq.2 (Std.LawfulEqCmp.eq_of_compare hcmp)
  have hone := nodup_iff_count_le_one.1 h key
  omega

/-! ## Buckets -/

namespace TopNQuery

variable {σ : Type}

/-- The pages of a bucket list its values, each once and in order, exactly where
the sort keys of the values allow it. -/
theorem pages_list_all_iff (runtime : TopNRuntime) (q : TopNQuery σ) (hthreshold : 0 < q.threshold) (ordering : Option String)
    (dimAggs : HashMap GroupKey σ) (entries : List (TopNEntry (GroupKey × σ))) (hentries : q.entriesOf runtime dimAggs = .ok entries) :
    (entries.map (·.payload.1) = dimAggs.keys ∧ dimAggs.keys.Nodup) ∧ (PagesListAll ordering q.threshold entries ↔
      Pageable q.threshold (isNumeric ordering) (dimAggs.keys.map (·.asSortKey runtime.displayF64))) := by
  have hkeys := sortKeys_of_entriesOf hentries
  have hvalues := congrArg (List.map Prod.fst) hkeys
  have hsort := congrArg (List.map Prod.snd) hkeys
  simp only [map_map, Function.comp_def, map_id'] at hvalues hsort
  refine ⟨⟨hvalues, AList.keys_nodup _⟩, ?_⟩
  rw [← hsort]
  exact ⟨PagesListAll.pageable hthreshold, Pageable.pagesListAll hthreshold⟩

/-! ## A null beside an empty text -/

/-- A row without tag, and one with an empty tag. -/
def untaggedAndEmpty : TypedSegment where
  numRows := 2
  dimensions := ["tag"]
  metrics := []
  timestamps := [0, 0]
  row rowIdx name :=
    if name = "__time" then some ((([0, 0] : List Int64)[rowIdx]?.map Json.ofI64).getD .null)
    else if name = "tag" then some (if rowIdx = 0 then .null else .string ⟨[], Eq.refl true⟩)
    else none
  timed rowIdx ts h := by simp [h]
  multiValue _ := false
  longColumn _ := none
  timeSorted := false
  uniform rowIdx rowIdx' name h := by split_ifs at h ⊢; rfl
  longs _ _ h := absurd h nofun
  sorted h := absurd h nofun

def plainTopNRuntime : TopNRuntime where
  time := ⟨false, MultiValueGroupBy.noCalendar, fun _ => none, fun _ => ""⟩
  dim := MultiValueGroupBy.plainRuntime
  displayF64 _ := []

/-- The tags in the order of their texts, one on a page, without aggregators. -/
def byTag : TopNQuery Unit where
  intervals := []
  granularity := .full .none
  dimension := .default "tag" "tag" .string
  threshold := 1
  metric := .dimension none none
  filter := none
  virtualColumns := .none
  aggregators := ⟨(), fun _ _ => (), fun _ => .ok [], fun _ m => m⟩
  postAggregations := []

/-- The tags `a`, `b` and `c`. -/
def threeTags : HashMap GroupKey Unit :=
  AList.insert (.string ⟨[0x62], Eq.refl true⟩) ()
    (AList.insert (.string ⟨[0x63], Eq.refl true⟩) () (AList.insert (.string ⟨[0x61], Eq.refl true⟩) () ∅))

/-- Three tags on three pages. -/
theorem byTag_three_values : ∃ entries, byTag.entriesOf plainTopNRuntime threeTags = .ok entries ∧ entries.length = 3 ∧
    PagesListAll none byTag.threshold entries := by
  refine ⟨_, rfl, rfl, ?_⟩
  exact ((pages_list_all_iff plainTopNRuntime byTag (by decide) none threeTags _ rfl).2).2 (Pageable.of_nodup (by decide +kernel))

/-- The empty text ends the first page, and is the cursor of null too. -/
theorem byTag_not_all :
    ∃ b dimAggs entries, byTag.buckets plainTopNRuntime untaggedAndEmpty 0 = .ok b ∧ b.dimAggs.lookup 0 = some dimAggs ∧
      dimAggs.keys = [.string ⟨[], Eq.refl true⟩, .null] ∧ byTag.entriesOf plainTopNRuntime dimAggs = .ok entries ∧
      ¬ PagesListAll none byTag.threshold entries := by
  refine ⟨_, _, _, rfl, rfl, rfl, rfl, fun h => ?_⟩
  have hties := (h.pageable Nat.one_pos).ties
  exact hties ⟨[], mem_cons_self, 1, by decide, by decide⟩

end TopNQuery

end FerroDruid.Query
