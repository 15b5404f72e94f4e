import Mathlib.Data.List.Sort
import Mathlib.Order.Basic
/-!
# Pages after a cursor

Entries in the order of a rank are listed page by page. A page starts strictly
after the last entry of the page before, so what it leaves of the entries that
rank with that one is passed over. Each page may be drawn from another order of
the entries, as long as it is sorted.
-/

namespace FerroDruid.Lib.Pagination

open List

variable {α R : Type} [LinearOrder R] (rank : α → R) (size : ℕ)

/-- Some page ends between entries of one rank: a multiple of the size lies
between the numbers of those before and of those up to the rank. -/
def CutsTie (entries : List α) : Prop :=
  ∃ e ∈ entries, ∃ pages : ℕ, entries.countP (rank · < rank e) < pages * size ∧ pages * size < entries.countP (rank · ≤ rank e)

/-- The entries after a cursor. -/
def after (stop : Option α) (entries : List α) : List α := entries.filter fun e => stop.all fun s => rank s < rank e

variable (arrange : ℕ → List α)

def page (i : ℕ) (stop : Option α) : List α := (after rank stop (arrange i)).take size

/-- The pages up to the first empty one, one after the other. -/
def paginate : ℕ → ℕ → Option α → Option (List α)
  | 0, _, _ => none
  | fuel + 1, i, stop =>
    match (page rank size arrange i stop).getLast? with
    | none => some []
    | some last => (paginate fuel (i + 1) (some last)).map (page rank size arrange i stop ++ ·)

variable {rank size arrange}

theorem paginate_mono {fuel more i : ℕ} (hmore : fuel ≤ more) {stop : Option α} {listing : List α}
    (h : paginate rank size arrange fuel i stop = some listing) : paginate rank size arrange more i stop = some listing := by
  induction fuel generalizing i stop listing more with
  | zero => cases h
  | succ fuel ih =>
    obtain ⟨more, rfl⟩ := Nat.exists_eq_add_of_le' ((Nat.le_add_left 1 fuel).trans hmore)
    rw [paginate] at h ⊢
    cases hlast : (page rank size arrange i stop).getLast? with
    | none =>
      rw [hlast] at h
      exact h
    | some last =>
      rw [hlast] at h
      obtain ⟨rest, hrest, rfl⟩ := Option.map_eq_some_iff.1 h
      simp only [ih (Nat.le_of_succ_le_succ hmore) hrest, Option.map_some]

theorem cutsTie_perm {l l' : List α} (h : l.Perm l') : CutsTie rank size l ↔ CutsTie rank size l' := by
  unfold CutsTie
  simp only [h.mem_iff, h.countP_eq]

/-- Nothing is cut in a list that fits on a page. -/
theorem not_cutsTie_of_length_le {l : List α} (h : l.length ≤ size) : ¬ CutsTie rank size l := by
  rintro ⟨e, -, pages, hlow, hhigh⟩
  have hle := countP_le_length (p := fun x => decide (rank x ≤ rank e)) (l := l)
  have hone : pages * size < 1 * size := by omega
  obtain rfl : pages = 0 := Nat.lt_one_iff.1 (Nat.lt_of_mul_lt_mul_right hone)
  omega

/-- What is counted up to a rank is counted as a whole by whatever holds there. -/
theorem countP_split {l : List α} {last : α} {p : α → Bool} (hp : ∀ x, rank x ≤ rank last → p x = true) :
    l.countP p = l.countP (rank · ≤ rank last) + (l.filter fun e => rank last < rank e).countP p := by
  rw [countP_eq_countP_filter_add l p (fun e => rank last < rank e), Nat.add_comm, countP_eq_length_filter (l := l)]
  congr 1
  have hsame : (l.filter fun e => !decide (rank last < rank e)) = l.filter fun e => rank e ≤ rank last :=
    filter_congr fun e _ => by simp [← not_lt]
  rw [hsame, countP_eq_length]
  exact fun e he => hp e (of_decide_eq_true (mem_filter.1 he).2)

/-- When the first page ends with a rank, the ties that are cut are those of the rest. -/
theorem cutsTie_rest {l : List α} {last : α} (hfirst : l.countP (rank · ≤ rank last) = size) :
    CutsTie rank size l ↔ CutsTie rank size (l.filter fun e => rank last < rank e) := by
  have hcounts : ∀ e, rank last < rank e →
      l.countP (rank · < rank e) = size + (l.filter fun e => rank last < rank e).countP (rank · < rank e) ∧
        l.countP (rank · ≤ rank e) = size + (l.filter fun e => rank last < rank e).countP (rank · ≤ rank e) := fun e he => by
    rw [← hfirst]
    exact ⟨countP_split fun x hx => decide_eq_true (hx.trans_lt he), countP_split fun x hx => decide_eq_true (hx.trans he.le)⟩
  constructor
  · rintro ⟨e, he, pages, hlow, hhigh⟩
    have hlast : rank last < rank e := by
      by_contra hcon
      have hle : l.countP (rank · ≤ rank e) ≤ l.countP (rank · ≤ rank last) :=
        countP_mono_left fun x _ hx => decide_eq_true ((of_decide_eq_true hx).trans (not_lt.1 hcon))
      have hone : pages * size < 1 * size := by omega
      obtain rfl : pages = 0 := Nat.lt_one_iff.1 (Nat.lt_of_mul_lt_mul_right hone)
      omega
    obtain ⟨hlt, hle⟩ := hcounts e hlast
    cases pages with
    | zero => omega
    | succ pages =>
      rw [Nat.succ_mul] at hlow hhigh
      exact ⟨e, mem_filter.2 ⟨he, decide_eq_true hlast⟩, pages, by omega, by omega⟩
  · rintro ⟨e, he, pages, hlow, hhigh⟩
    obtain ⟨he, hlast⟩ := mem_filter.1 he
    obtain ⟨hlt, hle⟩ := hcounts e (of_decide_eq_true hlast)
    exact ⟨e, he, pages + 1, by rw [Nat.succ_mul]; omega, by rw [Nat.succ_mul]; omega⟩

/-! ## One page -/

section

variable {l : List α} (hsorted : l.Pairwise fun a b => rank a ≤ rank b) {last : α} (hlast : (l.take size).getLast? = some last)
include hsorted hlast

theorem le_last : ∀ e ∈ l.take size, rank e ≤ rank last := by
  intro e he
  obtain ⟨init, hinit⟩ := getLast?_eq_some_iff.1 hlast
  rw [hinit, mem_append, mem_singleton] at he
  rcases he with he | rfl
  · have htake := hinit ▸ hsorted.sublist (take_sublist size l)
    exact (pairwise_append.1 htake).2.2 e he last (mem_singleton_self _)
  · exact le_rfl

theorem last_le : ∀ e ∈ l.drop size, rank last ≤ rank e := by
  rw [← take_append_drop size l] at hsorted
  exact fun e he => (pairwise_append.1 hsorted).2.2 last (mem_of_getLast? hlast) e he

/-- What is after the last entry of a page is in what the page leaves. -/
theorem filter_after_last : (l.filter fun e => rank last < rank e) = (l.drop size).filter fun e => rank last < rank e := by
  conv_lhs => rw [← take_append_drop size l, filter_append]
  have hnone : ((l.take size).filter fun e => rank last < rank e) = [] :=
    filter_eq_nil_iff.2 fun e he h => absurd (of_decide_eq_true h) (not_lt.2 (le_last hsorted hlast e he))
  rw [hnone, nil_append]

/-- A page that leaves entries of the rank of its last one cuts a tie. -/
theorem cutsTie_of_left {e : α} (he : e ∈ l.drop size) (hrank : ¬ rank last < rank e) : CutsTie rank size l := by
  have heq : rank e = rank last := le_antisymm (not_lt.1 hrank) (last_le hsorted hlast e he)
  have hfull : (l.take size).length = size := by
    rw [length_take, min_eq_left]
    have hpos := length_pos_of_mem he
    rw [length_drop] at hpos
    omega
  have hmem : last ∈ l.take size := mem_of_getLast? hlast
  have hparts : ∀ p : α → Bool, l.countP p = (l.take size).countP p + (l.drop size).countP p := fun p => by
    conv_lhs => rw [← take_append_drop size l, countP_append]
  refine ⟨last, mem_of_mem_take hmem, 1, ?_, ?_⟩
  · have hnone : (l.drop size).countP (rank · < rank last) = 0 :=
      countP_eq_zero.2 fun x hx h => absurd (of_decide_eq_true h) (not_lt.2 (last_le hsorted hlast x hx))
    have hless : (l.take size).countP (rank · < rank last) < (l.take size).length := by
      refine lt_of_le_of_ne countP_le_length fun h => ?_
      exact lt_irrefl _ (of_decide_eq_true (countP_eq_length.1 h last hmem))
    rw [hparts]
    omega
  · have hall : (l.take size).countP (rank · ≤ rank last) = (l.take size).length :=
      countP_eq_length.2 fun x hx => decide_eq_true (le_last hsorted hlast x hx)
    have hmore : 0 < (l.drop size).countP (rank · ≤ rank last) := countP_pos_iff.2 ⟨e, he, decide_eq_true heq.le⟩
    rw [hparts]
    omega

end

/-! ## All pages -/

/-- What is listed of entries: some of them in order, and all exactly if no tie
is cut. -/
structure Lists (rank : α → R) (size : ℕ) (l listing : List α) : Prop where
  sorted : listing.Pairwise fun a b => rank a ≤ rank b
  mem : ∀ e ∈ listing, e ∈ l
  length_le : listing.length ≤ l.length
  perm_iff : listing.Perm l ↔ ¬ CutsTie rank size l

/-- One page before the others. -/
theorem Lists.page {l rest listing : List α} (hsorted : l.Pairwise fun a b => rank a ≤ rank b) {last : α}
    (hlast : (l.take size).getLast? = some last) (hrest : rest.Perm (l.filter fun e => rank last < rank e))
    (h : Lists rank size rest listing) : Lists rank size l (l.take size ++ listing) := by
  have hmem : ∀ e ∈ listing, e ∈ l.drop size ∧ rank last < rank e := by
    intro e he
    have hin := hrest.mem_iff.1 (h.mem e he)
    rw [filter_after_last hsorted hlast, mem_filter] at hin
    exact ⟨hin.1, of_decide_eq_true hin.2⟩
  have hlen : rest.length = ((l.drop size).filter fun e => rank last < rank e).length := by
    rw [hrest.length_eq, filter_after_last hsorted hlast]
  have hle : rest.length ≤ (l.drop size).length := hlen.trans_le (length_filter_le _ _)
  have hwhole : l.length = (l.take size).length + (l.drop size).length := by
    rw [← length_append, take_append_drop]
  refine ⟨?_, ?_, ?_, ?_⟩
  · refine pairwise_append.2 ⟨hsorted.sublist (take_sublist _ _), h.sorted, fun a ha b hb => ?_⟩
    exact (le_last hsorted hlast a ha).trans (hmem b hb).2.le
  · intro e he
    rcases mem_append.1 he with he | he
    · exact mem_of_mem_take he
    · exact mem_of_mem_drop (hmem e he).1
  · have hlisted := h.length_le
    rw [length_append]
    omega
  · by_cases hcut : ∀ e ∈ l.drop size, rank last < rank e
    · have hfilter : (l.filter fun e => rank last < rank e) = l.drop size := by
        rw [filter_after_last hsorted hlast]
        exact filter_eq_self.2 fun e he => decide_eq_true (hcut e he)
      have hperm : (l.take size ++ listing).Perm l ↔ listing.Perm rest := by
        conv_lhs => rhs; rw [← take_append_drop size l]
        rw [perm_append_left_iff]
        rw [hfilter] at hrest
        exact ⟨fun h => h.trans hrest.symm, fun h => h.trans hrest⟩
      rw [hperm, h.perm_iff, cutsTie_perm hrest, not_iff_not]
      rcases Nat.lt_or_ge size l.length with hmore | hfits
      · refine (cutsTie_rest ?_).symm
        have hall := countP_eq_length.2 fun x hx => decide_eq_true (le_last hsorted hlast x hx)
        have hnone : (l.drop size).countP (rank · ≤ rank last) = 0 :=
          countP_eq_zero.2 fun x hx h => absurd (hcut x hx) (not_lt.2 (of_decide_eq_true h))
        conv_lhs => rw [← take_append_drop size l, countP_append, hnone, hall]
        rw [length_take, min_eq_left hmore.le, Nat.add_zero]
      · refine iff_of_false (not_cutsTie_of_length_le ?_) (not_cutsTie_of_length_le hfits)
        exact (length_filter_le _ _).trans hfits
    · push Not at hcut
      obtain ⟨e, he, hrank⟩ := hcut
      have hless : ((l.drop size).filter fun e => rank last < rank e).length < (l.drop size).length :=
        length_filter_lt_length_iff_exists.2 ⟨e, he, by simpa using hrank⟩
      refine iff_of_false (fun hperm => ?_) (not_not.2 (cutsTie_of_left hsorted hlast he (not_lt.2 hrank)))
      have hsame := hperm.length_eq
      have hlisted := h.length_le
      rw [length_append] at hsame
      omega

variable (hsize : 0 < size) {entries : List α}
  (harrange : ∀ i, (arrange i).Perm entries ∧ (arrange i).Pairwise fun a b => rank a ≤ rank b)
include hsize harrange

/-- Page after page, every entry past the cursor is listed or passed over, and
none is passed over unless a tie is cut. -/
theorem paginate_from (n i : ℕ) (stop : Option α) (hn : (after rank stop entries).length ≤ n) :
    ∃ enough, ∀ fuel ≥ enough, ∃ listing, paginate rank size arrange fuel i stop = some listing ∧
      Lists rank size (after rank stop entries) listing := by
  induction n generalizing i stop with
  | zero =>
    have hnil : after rank stop entries = [] := length_eq_zero_iff.1 (Nat.le_zero.1 hn)
    have hpage : page rank size arrange i stop = [] := by
      have hperm : (after rank stop (arrange i)).Perm (after rank stop entries) := (harrange i).1.filter _
      rw [hnil] at hperm
      rw [page, hperm.eq_nil, take_nil]
    refine ⟨1, fun fuel hfuel => ⟨[], ?_, ?_⟩⟩
    · obtain ⟨fuel, rfl⟩ := Nat.exists_eq_add_of_le' hfuel
      simp only [paginate, hpage]
      rfl
    · rw [hnil]
      exact ⟨.nil, by simp, le_rfl, iff_of_true .nil (not_cutsTie_of_length_le (Nat.zero_le _))⟩
  | succ n ih =>
    have hperm : (after rank stop (arrange i)).Perm (after rank stop entries) := (harrange i).1.filter _
    have hsorted : (after rank stop (arrange i)).Pairwise fun a b => rank a ≤ rank b := (harrange i).2.filter _
    cases hlast : (page rank size arrange i stop).getLast? with
    | none =>
      have hnil : after rank stop entries = [] := by
        have hpage : (after rank stop (arrange i)).take size = [] := getLast?_eq_none_iff.1 hlast
        rcases take_eq_nil_iff.1 hpage with h | h
        · omega
        · exact (h ▸ hperm).nil_eq.symm
      exact ⟨1, fun fuel hfuel => ⟨[], by
        obtain ⟨fuel, rfl⟩ := Nat.exists_eq_add_of_le' hfuel
        simp only [paginate, hlast], by
        rw [hnil]
        exact ⟨.nil, by simp, le_rfl, iff_of_true .nil (not_cutsTie_of_length_le (Nat.zero_le _))⟩⟩⟩
    | some last =>
      have hin : last ∈ after rank stop (arrange i) := mem_of_mem_take (mem_of_getLast? hlast)
      have hstop : ∀ s, stop = some s → rank s < rank last := by
        rintro s rfl
        simpa using (mem_filter.1 hin).2
      have hnext : after rank (some last) entries = (after rank stop entries).filter fun e => rank last < rank e := by
        rw [after, after, filter_filter]
        refine filter_congr fun e _ => ?_
        cases stop with
        | none => simp
        | some s =>
          have hs := hstop s rfl
          by_cases he : rank last < rank e
          · simp [he, hs.trans he]
          · simp [he]
      have hless : (after rank (some last) entries).length ≤ n := by
        have hlt : (after rank (some last) entries).length < (after rank stop entries).length := by
          rw [hnext]
          exact length_filter_lt_length_iff_exists.2 ⟨last, hperm.mem_iff.1 hin, by simp⟩
        omega
      obtain ⟨enough, hrun⟩ := ih (i + 1) (some last) hless
      refine ⟨enough + 1, fun fuel hfuel => ?_⟩
      obtain ⟨fuel, rfl⟩ := Nat.exists_eq_add_of_le' ((Nat.le_add_left 1 enough).trans hfuel)
      obtain ⟨listing, hlisting, hlists⟩ := hrun fuel (by omega)
      refine ⟨page rank size arrange i stop ++ listing, by simp only [paginate, hlast, hlisting, Option.map_some], ?_⟩
      have hfirst := Lists.page hsorted hlast (hnext ▸ (hperm.filter _).symm) hlists
      exact ⟨hfirst.sorted, fun e he => hperm.mem_iff.1 (hfirst.mem e he), hperm.length_eq ▸ hfirst.length_le,
        (hperm.congr_right _).symm.trans (hfirst.perm_iff.trans (not_congr (cutsTie_perm hperm)))⟩

end FerroDruid.Lib.Pagination
