import FerroDruid.Kafka.Loop
/-!
# How far the commit frontier gets when nothing fails

The buffer merges a gap between two offsets of one roll. The commit tracker
takes a gap between two rolls for a lost batch and stays behind it. So with
every publish a success, a partition commits through its last delivered offset
after each roll exactly when no gap falls on a roll boundary.
-/

namespace FerroDruid.Kafka

open FerroDruid.Lib List

/-- A record handed to the loop. -/
structure Delivered where
  partition : Partition
  offset : ℤ
  payload : Option Payload

/-- The commit tracker and the buffer, as the loop carries them. -/
abbrev Tracking := ContiguousFrontier × StreamingBuffer

/-- One record: `record_offset`, `note_consumed`, then `push_payload`, which
leaves the buffer alone when the record is dead-lettered. -/
def consumeDelivered (s : Tracking) (d : Delivered) : Tracking :=
  let b := s.2.recordOffset d.partition d.offset
  (s.1.noteConsumed d.partition d.offset,
    match d.payload with
    | none => b
    | some payload => (b.pushPayload d.partition d.offset payload).1)

/-- The records of one roll, then the roll, the publish and `record_durable`. -/
def publishRoll (s : Tracking) (roll : List Delivered) : Tracking × HashMap Partition ℤ :=
  let s := roll.foldl consumeDelivered s
  match s.2.rollWithOffsets true with
  | (b, .ok (some (_, spans))) => (((s.1.recordDurable spans).1, b), (s.1.recordDurable spans).2)
  | (b, _) => ((s.1, b), ∅)

/-- What `record_durable` returns for each roll of a run. -/
def publishAll : Tracking → List (List Delivered) → List (HashMap Partition ℤ)
  | _, [] => []
  | s, roll :: rest => (publishRoll s roll).2 :: publishAll (publishRoll s roll).1 rest

def Tracking.start (maxRows : ℕ) : Tracking := (.new, .fromConfig maxRows)

/-- The partition's offsets among the records, in order. -/
def offsetsOf (p : Partition) (roll : List Delivered) : List ℤ :=
  (roll.filter fun d => d.partition = p).map (·.offset)

/-- The record comes out as at least one row. -/
def Delivered.BearsRow (d : Delivered) : Prop := ∃ payload n, d.payload = some payload ∧ payload.rows = some (n + 1)

/-- A roll commits the partition through its last record of it. -/
def CommitsAll (p : Partition) (roll : List Delivered) (committable : HashMap Partition ℤ) : Prop :=
  ∀ last, (offsetsOf p roll).getLast? = some last → committable.lookup p = some (last + 1)

/-- One piece of the partition's offsets starts where the piece before it ended. -/
def Adjoins (a b : List ℤ) : Prop := b.head? = a.getLast?.map (· + 1)

/-- The pieces into which the rolls cut the partition's offsets. -/
def pieces (p : Partition) (rolls : List (List Delivered)) : List (List ℤ) :=
  (rolls.map (offsetsOf p)).filter (· ≠ [])

/-! ## The records of one roll -/

theorem offsetsOf_cons (p : Partition) (d : Delivered) (roll : List Delivered) :
    offsetsOf p (d :: roll) = if d.partition = p then d.offset :: offsetsOf p roll else offsetsOf p roll := by
  unfold offsetsOf
  by_cases h : d.partition = p <;> simp [h]

theorem offsetSpans_consumeDelivered (s : Tracking) (d : Delivered) :
    (consumeDelivered s d).2.offsetSpans =
      s.2.offsetSpans.insert d.partition (View.extended (s.2.offsetSpans.lookup d.partition) d.offset) := by
  rw [← (Session.offsetSpans_recordOffset s.2 d.partition d.offset).1]
  unfold consumeDelivered
  rcases d.payload with _ | payload
  · rfl
  · simp only [StreamingBuffer.pushPayload]
    split <;> rfl

theorem rows_consumeDelivered (s : Tracking) (d : Delivered) :
    (consumeDelivered s d).2.rows = [] ↔ s.2.rows = [] ∧ ¬ d.BearsRow := by
  have hrows := (Session.offsetSpans_recordOffset s.2 d.partition d.offset).2
  unfold consumeDelivered Delivered.BearsRow
  rcases d.payload with _ | ⟨_ | _ | n, bytes⟩ <;> simp [StreamingBuffer.pushPayload, hrows, replicate_succ]

theorem next_consumeDelivered (s : Tracking) (d : Delivered) (q : Partition) :
    (consumeDelivered s d).1.next.lookup q =
      if q = d.partition then some ((s.1.next.lookup q).getD d.offset) else s.1.next.lookup q := by
  unfold consumeDelivered
  rw [Session.lookup_noteConsumed]
  split_ifs with hq
  · rw [hq]
  · rfl

variable {p : Partition} {roll : List Delivered} {s : Tracking}

/-- A span that no later record falls short of is only lengthened. -/
theorem span_consume_roll {sp : OffsetSpan}
    (hsp : s.2.offsetSpans.lookup p = some sp) (hlt : (offsetsOf p roll).Pairwise (· < ·))
    (hge : ∀ o ∈ offsetsOf p roll, sp.next ≤ o) :
    (roll.foldl consumeDelivered s).2.offsetSpans.lookup p =
      some ⟨sp.start, ((offsetsOf p roll).getLast?.map saturatingSucc).getD sp.next⟩ := by
  induction roll generalizing s sp with
  | nil => exact hsp
  | cons d roll ih =>
    have hspans := offsetSpans_consumeDelivered s d
    rw [offsetsOf_cons] at hlt hge ⊢
    rw [foldl_cons]
    split_ifs at hlt hge ⊢ with hd
    · obtain ⟨hhead, htail⟩ := pairwise_cons.1 hlt
      have hfirst : sp.next ≤ d.offset := hge d.offset mem_cons_self
      -- the record lies at or after the end of the span, which it lengthens
      have hext : View.extended (some sp) d.offset = ⟨sp.start, saturatingSucc d.offset⟩ := if_neg (not_lt.2 hfirst)
      have hnow : (consumeDelivered s d).2.offsetSpans.lookup p = some ⟨sp.start, saturatingSucc d.offset⟩ := by
        rw [hspans, hd, AList.lookup_insert, hsp, hext]
      rw [ih hnow htail fun o ho => ?_]
      · cases hl : (offsetsOf p roll).getLast? with
        | none => simp [getLast?_eq_none_iff.1 hl]
        | some last => simp [getLast?_cons, hl]
      · have := hhead o ho
        simp only [saturatingSucc]
        omega
    · refine ih ?_ hlt hge
      rw [hspans, AList.lookup_insert_ne (Ne.symm hd), hsp]

/-- What a roll of records leaves of a partition that had no span: the span
from its first record through its last. -/
theorem span_of_roll
    (hsp : s.2.offsetSpans.lookup p = none) (hlt : (offsetsOf p roll).Pairwise (· < ·)) :
    (roll.foldl consumeDelivered s).2.offsetSpans.lookup p =
      match (offsetsOf p roll).head?, (offsetsOf p roll).getLast? with
      | some first, some last => some ⟨first, saturatingSucc last⟩
      | _, _ => none := by
  induction roll generalizing s with
  | nil => exact hsp
  | cons d roll ih =>
    have hspans := offsetSpans_consumeDelivered s d
    rw [offsetsOf_cons] at hlt ⊢
    rw [foldl_cons]
    split_ifs at hlt ⊢ with hd
    · obtain ⟨hhead, htail⟩ := pairwise_cons.1 hlt
      have hnow : (consumeDelivered s d).2.offsetSpans.lookup p = some ⟨d.offset, saturatingSucc d.offset⟩ := by
        rw [hspans, hd, AList.lookup_insert, hsp]
        rfl
      rw [span_consume_roll hnow htail fun o ho => ?_]
      · cases hl : (offsetsOf p roll).getLast? with
        | none => simp [getLast?_eq_none_iff.1 hl]
        | some last => simp [getLast?_cons, hl]
      · have := hhead o ho
        simp only [saturatingSucc]
        omega
    · refine ih ?_ hlt
      rw [hspans, AList.lookup_insert_ne (Ne.symm hd), hsp]

theorem next_of_roll (p : Partition) (roll : List Delivered) (s : Tracking) :
    (roll.foldl consumeDelivered s).1.next.lookup p = (s.1.next.lookup p).or (offsetsOf p roll).head? := by
  induction roll generalizing s with
  | nil => simp [offsetsOf]
  | cons d roll ih =>
    rw [foldl_cons, ih, next_consumeDelivered, offsetsOf_cons]
    by_cases hd : d.partition = p
    · rw [if_pos hd.symm, if_pos hd]
      cases s.1.next.lookup p <;> simp
    · rw [if_neg (Ne.symm hd), if_neg hd]

theorem rows_of_roll (h : ∃ d ∈ roll, d.BearsRow) : (roll.foldl consumeDelivered s).2.rows ≠ [] := by
  have key : ∀ (roll : List Delivered) (s : Tracking), (roll.foldl consumeDelivered s).2.rows = [] →
      s.2.rows = [] ∧ ∀ d ∈ roll, ¬ d.BearsRow := by
    intro roll
    induction roll with
    | nil => exact fun s hs => ⟨hs, by simp⟩
    | cons d roll ih =>
      intro s hs
      obtain ⟨hd, hrest⟩ := ih _ hs
      obtain ⟨hempty, hno⟩ := (rows_consumeDelivered s d).1 hd
      exact ⟨hempty, forall_mem_cons.2 ⟨hno, hrest⟩⟩
  obtain ⟨d, hd, hb⟩ := h
  exact fun he => (key roll s he).2 d hd hb

/-! ## One roll -/

/-- After a published roll no span is buffered. -/
theorem spans_publishRoll (hrow : ∃ d ∈ roll, d.BearsRow) : publishRoll s roll =
      ((((roll.foldl consumeDelivered s).1.recordDurable (roll.foldl consumeDelivered s).2.offsetSpans).1,
        (roll.foldl consumeDelivered s).2.emptied),
      ((roll.foldl consumeDelivered s).1.recordDurable (roll.foldl consumeDelivered s).2.offsetSpans).2) := by
  have hne := rows_of_roll (s := s) hrow
  unfold publishRoll StreamingBuffer.rollWithOffsets
  simp [hne]

/-- A roll without a record of the partition neither moves nor commits it. -/
theorem publishRoll_without (hrow : ∃ d ∈ roll, d.BearsRow)
    (hs : s.2.offsetSpans.lookup p = none) (hp : offsetsOf p roll = []) :
    (publishRoll s roll).1.1.next.lookup p = s.1.next.lookup p ∧
      (publishRoll s roll).1.2.offsetSpans.lookup p = none := by
  have hspan := @span_of_roll p roll s hs (by simp [hp])
  rw [hp] at hspan
  obtain ⟨hn, -⟩ := Session.foldl_recordSpan_spec (roll.foldl consumeDelivered s).2.offsetSpans.entries
    (roll.foldl consumeDelivered s).2.offsetSpans.nodupKeys ((roll.foldl consumeDelivered s).1, ∅) p
  rw [show List.dlookup p (roll.foldl consumeDelivered s).2.offsetSpans.entries = none from hspan,
    next_of_roll, hp] at hn
  rw [spans_publishRoll hrow]
  exact ⟨hn.trans (Option.or_none), rfl⟩

variable {first last : ℤ}

/-- A roll with records of the partition commits it through the last of them
when it starts at the frontier, and leaves it pinned when it starts above. -/
theorem publishRoll_with (hrow : ∃ d ∈ roll, d.BearsRow) (hs : s.2.offsetSpans.lookup p = none)
    (hlt : (offsetsOf p roll).Pairwise (· < ·)) (hf : (offsetsOf p roll).head? = some first)
    (hl : (offsetsOf p roll).getLast? = some last) :
    let frontier := (s.1.next.lookup p).getD first
    let bridged := View.Bridges frontier ⟨first, saturatingSucc last⟩
    (publishRoll s roll).1.1.next.lookup p = some (if bridged then saturatingSucc last else frontier) ∧
      (publishRoll s roll).2.lookup p = (if bridged then some (saturatingSucc last) else none) ∧
      (publishRoll s roll).1.2.offsetSpans.lookup p = none := by
  have hspan := span_of_roll hs hlt
  rw [hf, hl] at hspan
  obtain ⟨hn, hc⟩ := Session.foldl_recordSpan_spec (roll.foldl consumeDelivered s).2.offsetSpans.entries
    (roll.foldl consumeDelivered s).2.offsetSpans.nodupKeys ((roll.foldl consumeDelivered s).1, ∅) p
  have hnext : ((roll.foldl consumeDelivered s).1.next.lookup p).getD first = (s.1.next.lookup p).getD first := by
    rw [next_of_roll, hf]
    cases s.1.next.lookup p <;> rfl
  rw [show List.dlookup p (roll.foldl consumeDelivered s).2.offsetSpans.entries =
    some ⟨first, saturatingSucc last⟩ from hspan] at hn hc
  dsimp only at hn hc
  rw [hnext] at hn hc
  rw [spans_publishRoll hrow]
  exact ⟨hn, hc, rfl⟩

/-! ## A run of rolls -/

/-- The pieces adjoin, and the first of them starts at the frontier, when there is one. -/
def JoinedFrom (frontier : Option ℤ) (l : List (List ℤ)) : Prop :=
  (∀ n a, frontier = some n → l.head? = some a → a.head? = some n) ∧ l.IsChain Adjoins

variable {rolls : List (List Delivered)}

theorem pieces_cons_of_nil (h : offsetsOf p roll = []) : pieces p (roll :: rolls) = pieces p rolls := by
  simp [pieces, h]

theorem pieces_cons_of_ne
    (h : offsetsOf p roll ≠ []) : pieces p (roll :: rolls) = offsetsOf p roll :: pieces p rolls := by
  simp [pieces, h]

theorem joinedFrom_cons {frontier : Option ℤ} {a : List ℤ} {l : List (List ℤ)}
    (hf : a.head? = some first) (hl : a.getLast? = some last) :
    JoinedFrom frontier (a :: l) ↔ (∀ n, frontier = some n → first = n) ∧ JoinedFrom (some (last + 1)) l := by
  unfold JoinedFrom
  rcases l with _ | ⟨b, l⟩
  · simp [hf]
  · simp only [head?_cons, Option.some.injEq, isChain_cons_cons, Adjoins, hl, Option.map_some]
    grind

theorem le_getLast_of_pairwise {l : List ℤ} (hlt : l.Pairwise (· < ·)) (hl : l.getLast? = some last) :
    ∀ o ∈ l, o ≤ last := by
  obtain ⟨front, rfl⟩ := getLast?_eq_some_iff.1 hl
  intro o ho
  rcases mem_append.1 ho with ho | ho
  · exact le_of_lt ((pairwise_append.1 hlt).2.2 o ho last (mem_singleton.2 rfl))
  · exact le_of_eq (mem_singleton.1 ho)

/-- A roll commits through its last record when it starts at the frontier and
that record is not the last offset there is. -/
theorem commitsAll_iff (hrow : ∃ d ∈ roll, d.BearsRow) (hs : s.2.offsetSpans.lookup p = none)
    (hlt : (offsetsOf p roll).Pairwise (· < ·)) (hf : (offsetsOf p roll).head? = some first)
    (hl : (offsetsOf p roll).getLast? = some last) (hge : ∀ n, s.1.next.lookup p = some n → n ≤ first) :
    (CommitsAll p roll (publishRoll s roll).2 ↔
      (∀ n, s.1.next.lookup p = some n → first = n) ∧ last < i64Max) ∧
    (CommitsAll p roll (publishRoll s roll).2 →
      (publishRoll s roll).1.1.next.lookup p = some (last + 1)) := by
  obtain ⟨hnext, hcommit, -⟩ := publishRoll_with hrow hs hlt hf hl
  have hle : first ≤ last := le_getLast_of_pairwise hlt hl first (mem_of_head? hf)
  have hall : CommitsAll p roll (publishRoll s roll).2 ↔
      View.Bridges ((s.1.next.lookup p).getD first) ⟨first, saturatingSucc last⟩ ∧
        saturatingSucc last = last + 1 := by
    simp only [CommitsAll, hl, Option.some.injEq, forall_eq', hcommit]
    split_ifs with hb <;> simp [hb]
  refine ⟨hall.trans ?_, fun h => ?_⟩
  · unfold View.Bridges saturatingSucc
    cases hn : s.1.next.lookup p with
    | none =>
      simp only [Option.getD_none, reduceCtorEq, false_implies, implies_true, true_and]
      omega
    | some n =>
      have := hge n hn
      simp only [Option.getD_some, Option.some.injEq, forall_eq']
      omega
  · obtain ⟨hb, he⟩ := hall.1 h
    rw [hnext, if_pos hb, he]

theorem publishAll_commits_iff
    (hrow : ∀ roll ∈ rolls, ∃ d ∈ roll, d.BearsRow) (hs : s.2.offsetSpans.lookup p = none)
    (hlt : (rolls.flatMap (offsetsOf p)).Pairwise (· < ·))
    (hge : ∀ n, s.1.next.lookup p = some n → ∀ o ∈ rolls.flatMap (offsetsOf p), n ≤ o) :
    List.Forall₂ (CommitsAll p) rolls (publishAll s rolls) ↔
      JoinedFrom (s.1.next.lookup p) (pieces p rolls) ∧ ∀ o ∈ rolls.flatMap (offsetsOf p), o < i64Max := by
  induction rolls generalizing s with
  | nil => simp [publishAll, JoinedFrom, pieces]
  | cons roll rolls ih =>
    obtain ⟨hr, hrest⟩ := forall_mem_cons.1 hrow
    obtain ⟨hlt₁, hlt₂, hcross⟩ := pairwise_append.1 hlt
    rw [publishAll, forall₂_cons, flatMap_cons, forall_mem_append]
    rcases hoff : offsetsOf p roll with _ | ⟨first, more⟩
    -- the partition has no record here: its state is the one before
    · obtain ⟨hn, hspan⟩ := publishRoll_without hr hs hoff
      have hcommit : CommitsAll p roll (publishRoll s roll).2 := by
        simp [CommitsAll, hoff]
      rw [pieces_cons_of_nil hoff, ih hrest hspan hlt₂ fun n h o ho => ?_, hn]
      · simp [hcommit]
      · rw [hn] at h
        exact hge n h o (mem_append_right _ ho)
    · have hf : (offsetsOf p roll).head? = some first := by rw [hoff]; rfl
      obtain ⟨last, hl⟩ : ∃ last, (offsetsOf p roll).getLast? = some last :=
        Option.ne_none_iff_exists'.1 (by simp [hoff])
      have hmem : first ∈ offsetsOf p roll := mem_of_head? hf
      obtain ⟨hiff, hnext⟩ := commitsAll_iff hr hs hlt₁ hf hl fun n h => hge n h first (mem_append_left _ hmem)
      obtain ⟨-, -, hspan⟩ := publishRoll_with hr hs hlt₁ hf hl
      have hbelow : (∀ o ∈ offsetsOf p roll, o < i64Max) ↔ last < i64Max :=
        ⟨fun h => h last (mem_of_getLast? hl),
          fun h o ho => lt_of_le_of_lt (le_getLast_of_pairwise hlt₁ hl o ho) h⟩
      rw [← hoff, pieces_cons_of_ne (by simp [hoff]), joinedFrom_cons hf hl, hbelow]
      -- once the roll has committed, the rest runs on from the end of it
      have hgo : CommitsAll p roll (publishRoll s roll).2 →
          (List.Forall₂ (CommitsAll p) rolls (publishAll (publishRoll s roll).1 rolls) ↔
            JoinedFrom (some (last + 1)) (pieces p rolls) ∧ ∀ o ∈ rolls.flatMap (offsetsOf p), o < i64Max) := by
        intro h
        rw [ih hrest hspan hlt₂ fun n hn o ho => ?_, hnext h]
        rw [hnext h, Option.some.injEq] at hn
        have := hcross last (mem_of_getLast? hl) o ho
        omega
      constructor
      · rintro ⟨h, hrolls⟩
        obtain ⟨hat, hlast⟩ := hiff.1 h
        obtain ⟨hj, hmax⟩ := (hgo h).1 hrolls
        exact ⟨⟨hat, hj⟩, hlast, hmax⟩
      · rintro ⟨⟨hat, hj⟩, hlast, hmax⟩
        have h := hiff.2 ⟨hat, hlast⟩
        exact ⟨h, (hgo h).2 ⟨hj, hmax⟩⟩

/-- With every roll published, each commits the partition through its last
delivered offset exactly when no gap falls between two rolls and no offset is
the last there is. A gap inside a roll is committed over. -/
theorem commits_through_iff (p : Partition) (maxRows : ℕ) (rolls : List (List Delivered))
    (hrow : ∀ roll ∈ rolls, ∃ d ∈ roll, d.BearsRow) (hlt : (rolls.flatMap (offsetsOf p)).Pairwise (· < ·)) :
    List.Forall₂ (CommitsAll p) rolls (publishAll (.start maxRows) rolls) ↔
      (pieces p rolls).IsChain Adjoins ∧ ∀ o ∈ rolls.flatMap (offsetsOf p), o < i64Max := by
  have hempty : (Tracking.start maxRows).1.next.lookup p = none := rfl
  rw [publishAll_commits_iff hrow rfl hlt (by simp [hempty]), hempty]
  simp [JoinedFrom]

/-- A record of partition 0 that holds one row. -/
def rowAt (offset : ℤ) : Delivered := ⟨0, offset, some ⟨some 1, 16⟩⟩

theorem bearsRow_rowAt (offset : ℤ) : (rowAt offset).BearsRow := ⟨⟨some 1, 16⟩, 0, rfl, rfl⟩

/-- Offset 11 was never delivered. Inside the first roll that is no obstacle. -/
theorem commits_through_gap_inside :
    List.Forall₂ (CommitsAll 0) [[rowAt 10, rowAt 12], [rowAt 13]]
      (publishAll (.start 2) [[rowAt 10, rowAt 12], [rowAt 13]]) := by
  refine (commits_through_iff 0 2 [[rowAt 10, rowAt 12], [rowAt 13]] ?_ (by decide)).2 ⟨?_, by decide⟩
  · simp only [mem_cons, not_mem_nil, or_false]
    rintro roll (rfl | rfl)
    · exact ⟨_, mem_cons_self, bearsRow_rowAt 10⟩
    · exact ⟨_, mem_cons_self, bearsRow_rowAt 13⟩
  · simp [pieces, offsetsOf, rowAt, Adjoins]

/-- With the roll boundary at the missing offset, the second roll commits
nothing, and neither does any later one. -/
theorem gap_at_boundary_pins :
    ([[rowAt 10], [rowAt 12], [rowAt 13]].flatMap (offsetsOf 0)).Pairwise (· < ·) ∧
      (∀ roll ∈ [[rowAt 10], [rowAt 12], [rowAt 13]], ∃ d ∈ roll, d.BearsRow) ∧
      (publishAll (.start 1) [[rowAt 10], [rowAt 12], [rowAt 13]]).map (AList.lookup 0) = [some 11, none, none] ∧
      ¬ List.Forall₂ (CommitsAll 0) [[rowAt 10], [rowAt 12], [rowAt 13]]
        (publishAll (.start 1) [[rowAt 10], [rowAt 12], [rowAt 13]]) := by
  refine ⟨by decide, ?_, by decide, fun h => ?_⟩
  · simp only [mem_cons, not_mem_nil, or_false]
    rintro roll (rfl | rfl | rfl) <;> exact ⟨_, mem_cons_self, bearsRow_rowAt _⟩
  · rcases h with _ | ⟨-, h⟩
    rcases h with _ | ⟨h, -⟩
    exact absurd (h 12 rfl) (by decide)

end FerroDruid.Kafka
