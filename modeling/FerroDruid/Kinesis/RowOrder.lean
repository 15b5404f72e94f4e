import FerroDruid.Kinesis.Evidence
/-!
# The order of the rows

Spans of one range are walked in the order of their rows. Where they do not agree on
whether they continue what is below them, the order decides where the shard resumes.
-/

namespace FerroDruid.Kinesis

open ShardResume Lib

/-! ## Spans of one range -/

/-- What the spans below a span end with. -/
def lastsBefore (spans : Set SeqSpan) (x : SeqSpan) : Set SeqNum := {p | ∃ y ∈ spans, Before y x ∧ y.last = p}

/-- The span overlaps or continues what is below it, or is the anchor when nothing is. -/
def Linked (spans : Set SeqSpan) (x : SeqSpan) : Prop :=
  ((∀ y ∈ spans, ¬ Before y x) ∧ x.prevLast = none) ∨
    ∃ p, IsGreatest (lastsBefore spans x) p ∧ (x.start ≤ p ∨ x.prevLast = some p)

/-- Spans of one range are all linked or none is, where everything below them is linked. -/
def Settled (spans : Set SeqSpan) : Prop :=
  ∀ a ∈ spans, ∀ b ∈ spans, a.start = b.start → a.last = b.last → (∀ y ∈ spans, Before y a → Linked spans y) →
    (Linked spans a ↔ Linked spans b)

variable {spans : Set SeqSpan} {x : SeqSpan}

theorem chains_iff_linked {below : List SeqSpan} (h : ∀ y, y ∈ below ↔ y ∈ spans ∧ Before y x) :
    chains (reach below) x = true ↔ Linked spans x := by
  have hlasts : {q | ∃ y ∈ below, y.last = q} = lastsBefore spans x := by simp only [lastsBefore, h, and_assoc]
  obtain ⟨hgreatest, hnone⟩ := isGreatest_reach below
  rw [hlasts] at hgreatest
  cases hp : reach below with
  | none =>
    have hbelow := hnone hp
    have hfirst : ∀ y ∈ spans, ¬ Before y x := fun y hy hbefore => by
      have hmem := (h y).2 ⟨hy, hbefore⟩
      simp [hbelow] at hmem
    rw [chains, decide_eq_true_eq]
    constructor
    · exact fun hprev => .inl ⟨hfirst, hprev⟩
    · rintro (⟨-, hprev⟩ | ⟨p, ⟨⟨y, hy, hbefore, -⟩, -⟩, -⟩)
      · exact hprev
      · exact absurd hbefore (hfirst y hy)
  | some p =>
    rw [chains, decide_eq_true_eq]
    constructor
    · exact fun hchains => .inr ⟨p, hgreatest p hp, hchains.symm⟩
    · rintro (⟨hfirst, -⟩ | ⟨p', hp', hlinked⟩)
      · obtain ⟨⟨y, hy, hbefore, -⟩, -⟩ := hgreatest p hp
        exact absurd hbefore (hfirst y hy)
      · rw [IsGreatest.unique_seqNum (hgreatest p hp) hp']
        exact hlinked.symm

variable {y : SeqSpan}

/-- After a span of its own range, a span overlaps. -/
theorem chains_of_mem {below : List SeqSpan} (hy : y ∈ below) (hle : x.start ≤ y.last) : chains (reach below) x = true := by
  obtain ⟨hgreatest, hnone⟩ := isGreatest_reach below
  cases hp : reach below with
  | none =>
    rw [hnone hp] at hy
    exact absurd hy List.not_mem_nil
  | some p =>
    have hlast := (hgreatest p hp).2 ⟨y, hy, rfl⟩
    rw [SeqNum.le_iff] at hle hlast
    rw [chains, decide_eq_true_eq]
    exact .inr (SeqNum.le_iff.2 (hle.trans hlast))

/-- A sorted list of the spans. -/
structure Lists (sorted : List SeqSpan) (spans : Set SeqSpan) : Prop where
  mem : ∀ y, y ∈ sorted ↔ y ∈ spans
  sorted : sorted.Pairwise fun a b => ¬ Before b a
  ordered : ∀ y ∈ spans, y.start ≤ y.last

variable {sorted : List SeqSpan} {below rest : List SeqSpan}

theorem Lists.mem_below (h : Lists sorted spans) (hsplit : sorted = below ++ x :: rest) (hy : y ∈ spans)
    (hbefore : Before y x) : y ∈ below := by
  have hpairwise := h.sorted
  have hmem := (h.mem y).2 hy
  rw [hsplit] at hpairwise hmem
  rcases List.mem_append.1 hmem with hmem | hmem
  · exact hmem
  · rcases List.mem_cons.1 hmem with rfl | hmem
    · exact absurd hbefore (Before.irrefl y)
    · exact absurd hbefore ((List.pairwise_cons.1 (List.pairwise_append.1 hpairwise).2.1).1 y hmem)

theorem Lists.not_before (h : Lists sorted spans) (hsplit : sorted = below ++ x :: rest) (hy : y ∈ below) : ¬ Before x y := by
  have hpairwise := h.sorted
  rw [hsplit] at hpairwise
  exact (List.pairwise_append.1 hpairwise).2.2 y hy x List.mem_cons_self

/-- Where a span is reached, it is walked over when it is linked, or when one of its range was. -/
theorem Lists.chains_iff (h : Lists sorted spans) (hsplit : sorted = below ++ x :: rest) :
    chains (reach below) x = true ↔ Linked spans x ∨ ∃ y ∈ below, y.start = x.start ∧ y.last = x.last := by
  have hmem : ∀ y ∈ sorted, y ∈ spans := fun y => (h.mem y).1
  rw [hsplit] at hmem
  have hx : x ∈ spans := hmem x (by simp)
  by_cases hsame : ∃ y ∈ below, y.start = x.start ∧ y.last = x.last
  · obtain ⟨y, hy, hstart, hlast⟩ := hsame
    refine iff_of_true (chains_of_mem hy ?_) (.inr ⟨y, hy, hstart, hlast⟩)
    rw [hlast]
    exact h.ordered x hx
  · rw [or_iff_left hsame]
    refine chains_iff_linked fun y => ⟨fun hy => ⟨hmem y (List.mem_append_left _ hy), ?_⟩, fun hy => h.mem_below hsplit hy.1 hy.2⟩
    rcases Before.trichotomy y x with hbefore | hrange | hafter
    · exact hbefore
    · exact absurd ⟨y, hy, hrange⟩ hsame
    · exact absurd hafter (h.not_before hsplit hy)

/-! ## Settled spans -/

/-- The spans up to a span's range are linked. -/
def Good (spans : Set SeqSpan) (x : SeqSpan) : Prop := ∀ y ∈ spans, ¬ Before x y → Linked spans y

theorem Good.mono (h : Good spans x) (hxy : ¬ Before x y) : Good spans y := by
  intro z hz hyz
  refine h z hz fun hxz => ?_
  rcases Before.trichotomy y z with hbefore | ⟨hstart, hlast⟩ | hafter
  · exact hyz hbefore
  · exact hxy ((Before.congr hstart hlast).2 hxz)
  · exact hxy (hxz.trans hafter)

/-- The walk stops before the first span that is not good. -/
theorem Lists.not_chains (h : Lists sorted spans) (hsettled : Settled spans) (hsplit : sorted = below ++ x :: rest)
    (hbelow : ∀ y ∈ below, Good spans y) (hx : ¬ Good spans x) : ¬ chains (reach below) x = true := by
  have hmem : ∀ y ∈ sorted, y ∈ spans := fun y => (h.mem y).1
  rw [hsplit] at hmem
  have hbefore : ∀ y ∈ spans, Before y x → Linked spans y := fun y hy hyx =>
    hbelow y (h.mem_below hsplit hy hyx) y hy (Before.irrefl y)
  rw [h.chains_iff hsplit]
  rintro (hlinked | ⟨y, hy, hstart, hlast⟩)
  · refine hx fun y hy hxy => ?_
    rcases Before.trichotomy x y with hxy' | ⟨hstart, hlast⟩ | hyx
    · exact absurd hxy' hxy
    · exact (hsettled x (hmem x (by simp)) y hy hstart hlast hbefore).1 hlinked
    · exact hbefore y hy hyx
  · refine hx ((hbelow y hy).mono fun hyx => ?_)
    rw [Before.congr hstart.symm hlast.symm] at hyx
    exact Before.irrefl y hyx

/-- A sorted list has its good spans first. -/
theorem Lists.split_good (h : Lists sorted spans) : ∃ good rest, sorted = good ++ rest ∧ (∀ y, y ∈ good ↔ y ∈ spans ∧ Good spans y) ∧
    ∀ x ∈ rest, ¬ Good spans x := by
  have hsorted := h.sorted
  have hmem : ∀ y ∈ sorted, y ∈ spans := fun y => (h.mem y).1
  have hsplit : ∃ good rest, sorted = good ++ rest ∧ (∀ y ∈ good, Good spans y) ∧ ∀ x ∈ rest, ¬ Good spans x := by
    clear h hmem
    induction sorted with
    | nil => exact ⟨[], [], rfl, by simp, by simp⟩
    | cons y sorted ih =>
      rw [List.pairwise_cons] at hsorted
      by_cases hy : Good spans y
      · obtain ⟨good, rest, rfl, hgood, hrest⟩ := ih hsorted.2
        exact ⟨y :: good, rest, rfl, List.forall_mem_cons.2 ⟨hy, hgood⟩, hrest⟩
      · exact ⟨[], y :: sorted, rfl, by simp, List.forall_mem_cons.2 ⟨hy, fun x hx hgood => hy (hgood.mono (hsorted.1 x hx))⟩⟩
  obtain ⟨good, rest, rfl, hgood, hrest⟩ := hsplit
  refine ⟨good, rest, rfl, fun y => ⟨fun hy => ⟨hmem y (List.mem_append_left _ hy), hgood y hy⟩, fun ⟨hy, hygood⟩ => ?_⟩, hrest⟩
  rcases List.mem_append.1 ((h.mem y).2 hy) with hy | hy
  · exact hy
  · exact absurd hygood (hrest y hy)

/-- Settled spans are walked to the end of the good ones. -/
theorem Lists.walk_eq (h : Lists sorted spans) (hsettled : Settled spans) :
    ∃ good : List SeqSpan, walk none sorted = reach good ∧ ∀ y, y ∈ good ↔ y ∈ spans ∧ Good spans y := by
  obtain ⟨good, rest, rfl, hgood, hrest⟩ := h.split_good
  refine ⟨good, ?_, hgood⟩
  rw [walk_append]
  · cases rest with
    | nil => rfl
    | cons x rest => rw [walk, if_neg (h.not_chains hsettled rfl (fun y hy => ((hgood y).1 hy).2) (hrest x List.mem_cons_self))]
  · rintro b x b' rfl
    obtain ⟨hx, hxgood⟩ := (hgood x).1 (by simp)
    exact (h.chains_iff (by rw [List.append_assoc, List.cons_append])).2 (.inl (hxgood x hx (Before.irrefl x)))

/-- The walk does not depend on the order in which spans of a range are listed. -/
theorem Lists.walk_congr {sorted' : List SeqSpan} (h : Lists sorted spans) (h' : Lists sorted' spans) (hsettled : Settled spans) :
    walk none sorted = walk none sorted' := by
  obtain ⟨good, hwalk, hgood⟩ := h.walk_eq hsettled
  obtain ⟨good', hwalk', hgood'⟩ := h'.walk_eq hsettled
  rw [hwalk, hwalk']
  exact reach_congr fun y => (hgood y).trans (hgood' y).symm

/-! ## The first span of a range -/

/-- The span that comes first of its range decides whether the walk gets past it. -/
theorem Lists.walk_first (h : Lists sorted spans) (hsplit : sorted = below ++ x :: rest) (hfirst : ∀ y ∈ below, Before y x)
    (hlinked : ∀ y ∈ spans, Before y x → Linked spans y) :
    (Linked spans x → ∃ q, walk none sorted = some q ∧ x.last ≤ q) ∧
      (¬ Linked spans x → ∀ q, walk none sorted = some q → q < x.start) := by
  have hmem : ∀ y ∈ sorted, y ∈ spans := fun y => (h.mem y).1
  have hbelow : ∀ y, y ∈ below ↔ y ∈ spans ∧ Before y x := fun y =>
    ⟨fun hy => ⟨hmem y (hsplit ▸ List.mem_append_left _ hy), hfirst y hy⟩, fun hy => h.mem_below hsplit hy.1 hy.2⟩
  have hwalk : walk none sorted = walk (reach below) (x :: rest) := by
    rw [hsplit]
    refine walk_append _ ?_
    rintro b y b' rfl
    obtain ⟨hy, hyx⟩ := (hbelow y).1 (by simp)
    exact (h.chains_iff (by rw [hsplit, List.append_assoc, List.cons_append])).2 (.inl (hlinked y hy hyx))
  rw [hwalk, walk]
  constructor
  · intro hx
    rw [if_pos ((chains_iff_linked hbelow).2 hx)]
    obtain ⟨hgreatest, hnone⟩ := isGreatest_reach below
    have hempty : reach below = none → {q | ∃ y ∈ below, y.last = q} = ∅ := fun h => by simp [hnone h]
    obtain ⟨p, hp, hupper⟩ := isGreatest_advance (x := x) hgreatest hempty
    obtain ⟨q, hq, hle⟩ := le_walk p rest
    have hxp := hupper.2 (.inr rfl)
    rw [SeqNum.le_iff] at hle hxp
    exact ⟨q, hp ▸ hq, SeqNum.le_iff.2 (hxp.trans hle)⟩
  · intro hx q hq
    have hstop : ¬ chains (reach below) x = true := fun hchains => hx ((chains_iff_linked hbelow).1 hchains)
    rw [if_neg hstop] at hq
    rw [hq, chains, decide_eq_true_eq, not_or, SeqNum.le_iff, not_le] at hstop
    exact SeqNum.lt_iff.2 hstop.2

/-! ## Rows -/

variable {stream : Utf8} {current : Option Int64} {rows : List FrontierRowEvidence} {shard : Utf8}

theorem lists_sortedSpans (rows : List FrontierRowEvidence) :
    Lists (sortedSpans (loadedSpans stream current rows shard)) (skippable stream current rows shard) where
  mem _ := mem_sortedSpans_loaded
  sorted := pairwise_sortedSpans _
  ordered _ h := h.2

theorem skippable_perm {rows' : List FrontierRowEvidence} (h : rows'.Perm rows) :
    skippable stream current rows' shard = skippable stream current rows shard := by
  ext span
  simp only [skippable, Set.mem_ofPred_eq, h.mem_iff]

/-- A span whose row is listed first comes first of its range. -/
theorem exists_perm_first {span : SeqSpan} (h : span ∈ skippable stream current rows shard) :
    ∃ rows' below rest, rows'.Perm rows ∧ sortedSpans (loadedSpans stream current rows' shard) = below ++ span :: rest ∧
      ∀ y ∈ below, Before y span := by
  obtain ⟨⟨row, hrow, hskips⟩, hordered⟩ := h
  obtain ⟨before, after, rfl⟩ := List.append_of_mem hrow
  have hspans : (readRow stream current row).spans shard = [span] := by
    have hmem := mem_spans_iff.2 hskips
    have hlength := length_spans stream current row shard
    cases hl : (readRow stream current row).spans shard with
    | nil =>
      rw [hl] at hmem
      exact absurd hmem List.not_mem_nil
    | cons y ys =>
      rw [hl] at hmem hlength
      cases ys with
      | nil => rw [List.mem_singleton.1 hmem]
      | cons z zs => simp at hlength
  have hloaded : loadedSpans stream current (row :: (before ++ after)) shard = span :: loadedSpans stream current (before ++ after) shard := by
    rw [loadedSpans, List.flatMap_cons, hspans, List.singleton_append, loadedSpans]
  obtain ⟨below, rest, hsplit, hbelow⟩ := @sortedSpans_cons span (loadedSpans stream current (before ++ after) shard) hordered
  refine ⟨row :: (before ++ after), below, rest, List.perm_middle.symm, hloaded ▸ hsplit, fun y hy => ((hbelow y).1 hy).2⟩

/-- The position does not depend on the order of the rows. -/
def OrderFree (stream : Utf8) (current : Option Int64) (rows : List FrontierRowEvidence) : Prop :=
  ∀ rows' : List FrontierRowEvidence, rows'.Perm rows → ∀ (shard : Utf8) (default : StartPosition),
    (foldResumeFrontier rows' stream current).startPositionFor shard default =
      (foldResumeFrontier rows stream current).startPositionFor shard default

theorem orderFree_of_condemned (h : ∃ row ∈ rows, Condemns stream current row.payload) : OrderFree stream current rows := by
  intro rows' hperm shard default
  have h' : ∃ row ∈ rows', Condemns stream current row.payload := by simpa only [hperm.mem_iff] using h
  rw [(startPositionFor_eq stream current rows shard default).1 h, (startPositionFor_eq stream current rows' shard default).1 h']

theorem orderFree_of_settled (h : ∀ shard, Settled (skippable stream current rows shard)) : OrderFree stream current rows := by
  intro rows' hperm shard default
  by_cases hc : ∃ row ∈ rows, Condemns stream current row.payload
  · exact orderFree_of_condemned hc rows' hperm shard default
  · have hc' : ¬ ∃ row ∈ rows', Condemns stream current row.payload := by simpa only [hperm.mem_iff] using hc
    obtain ⟨-, hnamed, hother⟩ := startPositionFor_eq stream current rows shard default
    obtain ⟨-, hnamed', hother'⟩ := startPositionFor_eq stream current rows' shard default
    by_cases hn : ∃ row ∈ rows, Names stream shard row.payload
    · have hn' : ∃ row ∈ rows', Names stream shard row.payload := by simpa only [hperm.mem_iff] using hn
      have hlists' : Lists (sortedSpans (loadedSpans stream current rows' shard)) (skippable stream current rows shard) :=
        skippable_perm hperm ▸ lists_sortedSpans rows'
      rw [hnamed hc hn, hnamed' hc' hn', resumePoint, resumePoint, hlists'.walk_congr (lists_sortedSpans rows) (h shard)]
    · have hn' : ¬ ∃ row ∈ rows', Names stream shard row.payload := by simpa only [hperm.mem_iff] using hn
      rw [hother hc hn, hother' hc' hn']

theorem linked_of_orderFree (h : OrderFree stream current rows) (hc : ¬ ∃ row ∈ rows, Condemns stream current row.payload)
    {a b : SeqSpan} (ha : a ∈ skippable stream current rows shard) (hb : b ∈ skippable stream current rows shard)
    (hstart : a.start = b.start) (hlast : a.last = b.last)
    (hbelow : ∀ y ∈ skippable stream current rows shard, Before y a → Linked (skippable stream current rows shard) y)
    (hlinked : Linked (skippable stream current rows shard) a) : Linked (skippable stream current rows shard) b := by
  -- the walks with either of the two listed first end at the same number
  have hpoint : ∀ rows' : List FrontierRowEvidence, rows'.Perm rows →
      walk none (sortedSpans (loadedSpans stream current rows' shard)) = resumePoint (loadedSpans stream current rows shard) := by
    intro rows' hperm
    have hc' : ¬ ∃ row ∈ rows', Condemns stream current row.payload := by simpa only [hperm.mem_iff] using hc
    obtain ⟨⟨row, hrow, hskips⟩, -⟩ := ha
    obtain ⟨fields, v, hfields, hget, -⟩ := hskips.entry
    have hn : ∃ row ∈ rows, Names stream shard row.payload := ⟨row, hrow, hskips.attributed, fields, v, hfields, hget⟩
    have hn' : ∃ row ∈ rows', Names stream shard row.payload := by simpa only [hperm.mem_iff] using hn
    have hsame := h rows' hperm shard .latest
    rw [(startPositionFor_eq stream current rows shard .latest).2.1 hc hn,
      (startPositionFor_eq stream current rows' shard .latest).2.1 hc' hn'] at hsame
    exact positionAfter_injective hsame
  obtain ⟨rowsA, belowA, restA, hpermA, hsplitA, hfirstA⟩ := exists_perm_first ha
  obtain ⟨rowsB, belowB, restB, hpermB, hsplitB, hfirstB⟩ := exists_perm_first hb
  have hlistsA : Lists (sortedSpans (loadedSpans stream current rowsA shard)) (skippable stream current rows shard) :=
    skippable_perm hpermA ▸ lists_sortedSpans rowsA
  have hlistsB : Lists (sortedSpans (loadedSpans stream current rowsB shard)) (skippable stream current rows shard) :=
    skippable_perm hpermB ▸ lists_sortedSpans rowsB
  obtain ⟨q, hq, hle⟩ := (hlistsA.walk_first hsplitA hfirstA hbelow).1 hlinked
  by_contra hnot
  have hbelowB : ∀ y ∈ skippable stream current rows shard, Before y b → Linked (skippable stream current rows shard) y :=
    fun y hy hyb => hbelow y hy ((Before.congr hstart hlast).2 hyb)
  have hlt := (hlistsB.walk_first hsplitB hfirstB hbelowB).2 hnot q ((hpoint rowsB hpermB).trans ((hpoint rowsA hpermA).symm.trans hq))
  have hordered := hb.2
  rw [SeqNum.le_iff] at hle hordered
  rw [SeqNum.lt_iff] at hlt
  rw [hlast] at hle
  omega

/-- The order of the rows does not matter exactly when a row floors every shard, or the
spans of every shard are settled. -/
theorem orderFree_iff (stream : Utf8) (current : Option Int64) (rows : List FrontierRowEvidence) :
    (∀ rows' : List FrontierRowEvidence, rows'.Perm rows → ∀ (shard : Utf8) (default : StartPosition),
      (foldResumeFrontier rows' stream current).startPositionFor shard default =
        (foldResumeFrontier rows stream current).startPositionFor shard default) ↔
      (∃ row ∈ rows, Condemns stream current row.payload) ∨ ∀ shard, Settled (skippable stream current rows shard) := by
  constructor
  · intro h
    by_cases hc : ∃ row ∈ rows, Condemns stream current row.payload
    · exact .inl hc
    · refine .inr fun shard a ha b hb hstart hlast hbelow => ⟨?_, ?_⟩
      · exact linked_of_orderFree h hc ha hb hstart hlast hbelow
      · refine linked_of_orderFree h hc hb ha hstart.symm hlast.symm fun y hy hyb => hbelow y hy ?_
        exact (Before.congr hstart hlast).2 hyb
  · rintro (hc | hsettled)
    · exact orderFree_of_condemned hc
    · exact orderFree_of_settled hsettled

/-- A row of the same range as the anchor that does not claim to be one. -/
def loadedLater : FrontierRowEvidence :=
  ⟨clicksPayload (.object [(shardZero, spanJson ⟨ascii "1", Eq.refl true⟩ ⟨ascii "2", Eq.refl true⟩ (.string ⟨ascii "0", Eq.refl true⟩))]), true⟩

/-- The same two rows, either way round. -/
theorem order_of_rows_matters : ¬ ∀ (stream : Utf8) (current : Option Int64) (rows rows' : List FrontierRowEvidence), rows'.Perm rows →
    ∀ (shard : Utf8) (default : StartPosition), (foldResumeFrontier rows' stream current).startPositionFor shard default =
      (foldResumeFrontier rows stream current).startPositionFor shard default := by
  intro h
  have hsame := h clicks (some 7) [loadedAnchor, loadedLater] [loadedLater, loadedAnchor] (.swap _ _ _) shardZero .latest
  revert hsame
  decide +kernel

end FerroDruid.Kinesis
