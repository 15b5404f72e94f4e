import FerroDruid.Dict.RoundTrip
/-!
# Random access against the full decoder

Both walk the same records; the full decoder also looks at every string on the
way, `get_v2` only at the base and the target. So wherever the full decoder
succeeds the two agree, and where only `get_v2` succeeds the full decoder stops
at the string of another entry.
-/

namespace FerroDruid.Dict

open Lib List

variable {data : Bytes} {offsetsStart pos stop count : ℕ} {base : Utf8} {values : List Utf8} {l : Layout}

/-- An error about the string of an entry, not about where records lie. -/
def DictError.IsString : DictError → Prop
  | .invalidUtf8 | .invalidUtf8Suffix | .prefixTooLong _ _ | .prefixInsideCharacter _ => True
  | _ => False

/-! ## One record -/

/-- Decoding an entry is reading its lengths, then its string. -/
theorem readEntry_ok {entry : Utf8} :
    readEntry data offsetsStart base pos = .ok (entry, stop) ↔
      ∃ prefixLen suffixLen at', readLengths data offsetsStart pos = .ok (prefixLen, suffixLen, at') ∧
        readSuffix data base prefixLen suffixLen at' = .ok entry ∧ at' + suffixLen = stop := by
  unfold readEntry
  simp only [bind_eq_ok, Prod.exists]
  constructor
  · rintro ⟨p, n, q, hlen, e, hsuffix, h⟩
    cases h
    exact ⟨p, n, q, hlen, hsuffix, rfl⟩
  · rintro ⟨p, n, q, hlen, hsuffix, rfl⟩
    exact ⟨p, n, q, hlen, entry, hsuffix, rfl⟩

theorem readSuffix_error {prefixLen suffixLen : ℕ} {e : DictError}
    (h : readSuffix data base prefixLen suffixLen pos = .error e) : e.IsString := by
  unfold readSuffix at h
  split_ifs at h with hlong hb
  · cases h
    trivial
  · split at h
    · cases h
      trivial
    · cases h
  · cases h
    trivial

/-! ## The records of a bucket -/

theorem skipEntries_succ :
    skipEntries data offsetsStart (count + 1) pos = .ok stop ↔
      ∃ prefixLen suffixLen at', readLengths data offsetsStart pos = .ok (prefixLen, suffixLen, at') ∧
        skipEntries data offsetsStart count (at' + suffixLen) = .ok stop := by
  rw [skipEntries]
  simp only [bind_eq_ok, Prod.exists]

theorem readEntries_succ :
    readEntries .v2 data offsetsStart (count + 1) base pos = .ok (values, stop) ↔
      ∃ entry at' rest, values = entry :: rest ∧ readEntry data offsetsStart base pos = .ok (entry, at') ∧
        readEntries .v2 data offsetsStart count base at' = .ok (rest, stop) := by
  rw [readEntries]
  simp only [bind_eq_ok, Prod.exists]
  constructor
  · rintro ⟨entry, at', hentry, rest, q, hrest, h⟩
    cases h
    exact ⟨entry, at', rest, rfl, hentry, hrest⟩
  · rintro ⟨entry, at', rest, rfl, hentry, hrest⟩
    exact ⟨entry, at', hentry, rest, stop, hrest, rfl⟩

/-- What decodes also skips, to the same end. -/
theorem skipEntries_of_readEntries (h : readEntries .v2 data offsetsStart count base pos = .ok (values, stop)) :
    skipEntries data offsetsStart count pos = .ok stop ∧ values.length = count := by
  induction count generalizing pos values with
  | zero =>
    cases h
    exact ⟨rfl, rfl⟩
  | succ count ih =>
    obtain ⟨entry, at', rest, rfl, hentry, hrest⟩ := readEntries_succ.1 h
    obtain ⟨p, n, q, hlen, -, rfl⟩ := readEntry_ok.1 hentry
    obtain ⟨hskip, hcount⟩ := ih hrest
    exact ⟨skipEntries_succ.2 ⟨p, n, q, hlen, hskip⟩, by rw [length_cons, hcount]⟩

/-- What skips decodes to the same end, or stops at a string. -/
theorem readEntries_of_skipEntries (h : skipEntries data offsetsStart count pos = .ok stop) :
    (∃ values, readEntries .v2 data offsetsStart count base pos = .ok (values, stop)) ∨
      ∃ e, readEntries .v2 data offsetsStart count base pos = .error e ∧ e.IsString := by
  induction count generalizing pos with
  | zero =>
    cases h
    exact .inl ⟨[], rfl⟩
  | succ count ih =>
    obtain ⟨p, n, q, hlen, hskip⟩ := skipEntries_succ.1 h
    have hread : readEntry data offsetsStart base pos =
        readSuffix data base p n q >>= fun entry => .ok (entry, q + n) := by
      unfold readEntry
      rw [hlen]
      rfl
    cases hs : readSuffix data base p n q with
    | error e =>
      refine .inr ⟨e, ?_, readSuffix_error hs⟩
      rw [readEntries, hread, hs]
      rfl
    | ok entry =>
      rcases ih hskip with ⟨rest, hrest⟩ | ⟨e, he, hstring⟩
      · exact .inl ⟨entry :: rest, readEntries_succ.2 ⟨entry, q + n, rest, rfl, readEntry_ok.2 ⟨p, n, q, hlen, hs, rfl⟩, hrest⟩⟩
      · refine .inr ⟨e, ?_, hstring⟩
        rw [readEntries, hread, hs]
        show (readEntries .v2 data offsetsStart count base (q + n) >>= _) = _
        rw [he]
        rfl

/-- Past the base, the entry `steps` on is the one that many steps into the
bucket. -/
theorem getEntry_of_readEntries {steps : ℕ} (h : readEntries .v2 data offsetsStart count base pos = .ok (values, stop))
    (hsteps : steps ≤ count) : ∃ entry, (base :: values)[steps]? = some entry ∧ getEntry data offsetsStart base steps pos = .ok entry := by
  induction count generalizing pos values steps with
  | zero =>
    obtain rfl : steps = 0 := by omega
    exact ⟨base, rfl, rfl⟩
  | succ count ih =>
    cases steps with
    | zero => exact ⟨base, rfl, rfl⟩
    | succ steps =>
      obtain ⟨entry, at', rest, rfl, hentry, hrest⟩ := readEntries_succ.1 h
      obtain ⟨p, n, q, hlen, hsuffix, rfl⟩ := readEntry_ok.1 hentry
      cases steps with
      | zero =>
        refine ⟨entry, rfl, ?_⟩
        rw [getEntry, hlen, ok_bind]
        exact hsuffix
      | succ steps =>
        obtain ⟨e, hget, hread⟩ := @ih _ _ (steps + 1) hrest (by omega)
        refine ⟨e, by simpa using hget, ?_⟩
        rw [getEntry, hlen, ok_bind]
        exact hread

/-! ## One bucket -/

theorem readBucket_ok {bucket : List Utf8} :
    readBucket .v2 data offsetsStart count pos = .ok (bucket, stop) ↔
      ∃ first at' rest, bucket = first :: rest ∧ readFirst data offsetsStart pos = .ok (first, at') ∧
        readEntries .v2 data offsetsStart (count - 1) first at' = .ok (rest, stop) := by
  unfold readBucket
  simp only [bind_eq_ok, Prod.exists]
  constructor
  · rintro ⟨first, at', hfirst, rest, q, hrest, h⟩
    cases h
    exact ⟨first, at', rest, rfl, hfirst, hrest⟩
  · rintro ⟨first, at', rest, rfl, hfirst, hrest⟩
    exact ⟨first, at', hfirst, rest, stop, hrest, rfl⟩

/-- The base from its length: the bytes are a string or they are not. -/
theorem readFirst_eq (data : Bytes) (offsetsStart pos : ℕ) :
    readFirst data offsetsStart pos = (readVint data pos >>= fun (len, at') =>
      if offsetsStart < at' + len then .error .bucketOverflows
      else
        match Utf8.ofBytes? (slice data at' len) with
        | none => .error .invalidUtf8
        | some first => .ok (first, at' + len)) := rfl

theorem skipV2Bucket_ok :
    skipV2Bucket data offsetsStart count pos = .ok stop ↔
      ∃ len at', readVint data pos = .ok (len, at') ∧ at' + len ≤ offsetsStart ∧
        skipEntries data offsetsStart (count - 1) (at' + len) = .ok stop := by
  unfold skipV2Bucket
  simp only [bind_eq_ok, Prod.exists]
  constructor
  · rintro ⟨len, at', hvint, h⟩
    split_ifs at h with hover
    · cases h
    · exact ⟨len, at', hvint, Nat.le_of_not_lt hover, h⟩
  · rintro ⟨len, at', hvint, hle, h⟩
    refine ⟨len, at', hvint, ?_⟩
    rw [if_neg (Nat.not_lt.2 hle)]
    exact h

theorem skipV2Bucket_of_readBucket {bucket : List Utf8} (h : readBucket .v2 data offsetsStart count pos = .ok (bucket, stop)) :
    skipV2Bucket data offsetsStart count pos = .ok stop ∧ bucket.length = count - 1 + 1 := by
  obtain ⟨first, at', rest, rfl, hfirst, hrest⟩ := readBucket_ok.1 h
  obtain ⟨hskip, hcount⟩ := skipEntries_of_readEntries hrest
  rw [readFirst_eq, bind_eq_ok] at hfirst
  obtain ⟨⟨len, q⟩, hvint, hfirst⟩ := hfirst
  simp only at hfirst
  split_ifs at hfirst with hover
  split at hfirst
  · cases hfirst
  · cases hfirst
    exact ⟨skipV2Bucket_ok.2 ⟨len, q, hvint, by omega, hskip⟩, by rw [length_cons, hcount]⟩

theorem readBucket_of_skipV2Bucket (h : skipV2Bucket data offsetsStart count pos = .ok stop) :
    (∃ bucket, readBucket .v2 data offsetsStart count pos = .ok (bucket, stop)) ∨
      ∃ e, readBucket .v2 data offsetsStart count pos = .error e ∧ e.IsString := by
  obtain ⟨len, q, hvint, hle, hskip⟩ := skipV2Bucket_ok.1 h
  have hfirst : readFirst data offsetsStart pos =
      match Utf8.ofBytes? (slice data q len) with
      | none => .error .invalidUtf8
      | some first => .ok (first, q + len) := by
    rw [readFirst_eq, hvint, ok_bind]
    exact if_neg (by omega)
  cases hs : Utf8.ofBytes? (slice data q len) with
  | none =>
    rw [hs] at hfirst
    refine .inr ⟨.invalidUtf8, ?_, trivial⟩
    unfold readBucket
    rw [hfirst]
    rfl
  | some first =>
    rw [hs] at hfirst
    rcases @readEntries_of_skipEntries data _ _ _ _ first hskip with ⟨rest, hrest⟩ | ⟨e, he, hstring⟩
    · exact .inl ⟨first :: rest, readBucket_ok.2 ⟨first, q + len, rest, rfl, hfirst, hrest⟩⟩
    · refine .inr ⟨e, ?_, hstring⟩
      unfold readBucket
      rw [hfirst, ok_bind]
      show (readEntries .v2 data offsetsStart (count - 1) first (q + len) >>= _) = _
      rw [he]
      rfl

/-! ## Every bucket up to one -/

variable {b : ℕ} {offsets : List ℕ}

theorem readBuckets_cons {offset : ℕ} : readBuckets .v2 data l b (offset :: offsets) = .ok values ↔
      ∃ bucket rest, values = bucket ++ rest ∧
        readBucket .v2 data l.offsetsStart (l.count b) (12 + offset) = .ok (bucket, l.expectedEnd b) ∧
        readBuckets .v2 data l (b + 1) offsets = .ok rest := by
  rw [readBuckets]
  simp only [bind_eq_ok, Prod.exists]
  constructor
  · rintro ⟨bucket, q, hbucket, h⟩
    split_ifs at h with hend
    · cases h
    · obtain ⟨rest, hrest, h⟩ := bind_eq_ok.1 h
      cases h
      exact ⟨bucket, rest, rfl, not_not.1 hend ▸ hbucket, hrest⟩
  · rintro ⟨bucket, rest, rfl, hbucket, hrest⟩
    refine ⟨bucket, _, hbucket, ?_⟩
    rw [if_neg (by simp), hrest]
    rfl

/-- The buckets of a successful decode, each of which ends where it has to. -/
theorem readBuckets_ok (h : readBuckets .v2 data l b offsets = .ok values) :
    ∃ bs : List (List Utf8), values = bs.flatten ∧ bs.length = offsets.length ∧
      ∀ j offset, offsets[j]? = some offset → ∃ bucket, bs[j]? = some bucket ∧
        readBucket .v2 data l.offsetsStart (l.count (b + j)) (12 + offset) = .ok (bucket, l.expectedEnd (b + j)) := by
  induction offsets generalizing b values with
  | nil =>
    cases h
    exact ⟨[], rfl, rfl, nofun⟩
  | cons offset offsets ih =>
    obtain ⟨bucket, rest, rfl, hbucket, hrest⟩ := readBuckets_cons.1 h
    obtain ⟨bs, rfl, hlen, hall⟩ := ih hrest
    refine ⟨bucket :: bs, rfl, by simp [hlen], fun j offset' hj => ?_⟩
    cases j with
    | zero =>
      cases hj
      exact ⟨bucket, rfl, hbucket⟩
    | succ j =>
      obtain ⟨bucket', hget, hread⟩ := hall j offset' hj
      rw [Nat.add_assoc, Nat.add_comm 1] at hread
      exact ⟨bucket', hget, hread⟩

/-- Where every bucket skips to its end, decoding succeeds or stops at a
string. -/
theorem readBuckets_of_skip (h : ∀ j offset, offsets[j]? = some offset →
      skipV2Bucket data l.offsetsStart (l.count (b + j)) (12 + offset) = .ok (l.expectedEnd (b + j))) :
    (∃ values, readBuckets .v2 data l b offsets = .ok values) ∨
      ∃ e, readBuckets .v2 data l b offsets = .error e ∧ e.IsString := by
  induction offsets generalizing b with
  | nil => exact .inl ⟨[], rfl⟩
  | cons offset offsets ih =>
    have hrest := ih (b := b + 1) fun j offset' hj => by
      have hskip := h (j + 1) offset' hj
      rwa [← Nat.add_assoc, Nat.add_right_comm] at hskip
    rcases readBucket_of_skipV2Bucket (h 0 offset rfl) with ⟨bucket, hbucket⟩ | ⟨e, he, hstring⟩
    · rcases hrest with ⟨rest, hrest⟩ | ⟨e, he, hstring⟩
      · exact .inl ⟨bucket ++ rest, readBuckets_cons.2 ⟨bucket, rest, rfl, hbucket, hrest⟩⟩
      · refine .inr ⟨e, ?_, hstring⟩
        rw [Nat.add_zero] at hbucket
        rw [readBuckets, hbucket, ok_bind]
        show (if l.expectedEnd b ≠ l.expectedEnd b then _ else _ : Result _) = _
        rw [if_neg (by simp)]
        rw [he]
        rfl
    · refine .inr ⟨e, ?_, hstring⟩
      rw [Nat.add_zero] at he
      rw [readBuckets, he]
      rfl

theorem checkBuckets_ok {n : ℕ} : checkBuckets data l b n = .ok () ↔
      ∀ j < n, skipV2Bucket data l.offsetsStart (l.count (b + j)) (12 + l.offsets.getD (b + j) 0) = .ok (l.expectedEnd (b + j)) := by
  induction n generalizing b with
  | zero => exact iff_of_true rfl nofun
  | succ n ih =>
    rw [checkBuckets, bind_eq_ok]
    constructor
    · rintro ⟨stop, hskip, h⟩ j hj
      split_ifs at h with hend
      · cases h
      · cases j with
        | zero => exact not_not.1 hend ▸ hskip
        | succ j =>
          have hnext := (ih.1 h) j (by omega)
          rwa [Nat.add_assoc, Nat.add_comm 1] at hnext
    · intro h
      refine ⟨l.expectedEnd b, h 0 (by omega), ?_⟩
      rw [if_neg (by simp)]
      refine ih.2 fun j hj => ?_
      have hnext := h (j + 1) (by omega)
      rwa [← Nat.add_assoc, Nat.add_right_comm] at hnext

/-- A decode of every bucket begins with a decode of the first ones. -/
theorem readBuckets_take {m : ℕ} (h : readBuckets .v2 data l b offsets = .ok values) :
    ∃ values', readBuckets .v2 data l b (offsets.take m) = .ok values' ∧ values' <+: values := by
  induction offsets generalizing b m values with
  | nil => exact ⟨[], by simp [readBuckets], nil_prefix⟩
  | cons offset offsets ih =>
    obtain ⟨bucket, rest, rfl, hbucket, hrest⟩ := readBuckets_cons.1 h
    cases m with
    | zero => exact ⟨[], rfl, nil_prefix⟩
    | succ m =>
      obtain ⟨rest', hrest', htaken⟩ := ih (m := m) hrest
      exact ⟨bucket ++ rest', readBuckets_cons.2 ⟨bucket, rest', rfl, hbucket, hrest'⟩,
        (prefix_append_right_inj bucket).2 htaken⟩

/-! ## Ordinals -/

variable {k : ℕ}

/-- An element of a list of lists whose first ones are all of one length. -/
theorem getElem?_flatten {α : Type} {bs : List (List α)} {r n : ℕ} (h : ∀ j < k, ∃ b, bs[j]? = some b ∧ b.length = n)
    {b : List α} (hb : bs[k]? = some b) (hr : r < b.length) : bs.flatten[k * n + r]? = b[r]? := by
  induction k generalizing bs with
  | zero =>
    cases bs with
    | nil => cases hb
    | cons b₀ bs =>
      cases hb
      rw [Nat.zero_mul, Nat.zero_add, flatten_cons, getElem?_append_left hr]
  | succ k ih =>
    cases bs with
    | nil => cases hb
    | cons b₀ bs =>
      obtain ⟨_, hfirst, hlen⟩ := h 0 (by omega)
      cases hfirst
      have hrest := @ih bs (fun j hj => h (j + 1) (by omega)) hb
      rw [flatten_cons, getElem?_append_right (by rw [Nat.succ_mul]; omega), ← hrest]
      congr 1
      rw [Nat.succ_mul]
      omega

theorem count_pos (hb : 0 < l.bucketSize) (hk : k < divCeil l.numValues l.bucketSize) : 0 < l.count k := by
  have := (lt_divCeil hb).1 hk
  unfold Layout.count
  omega

variable {i : ℕ}

/-- Every bucket before an ordinal's own is full. -/
theorem count_of_lt {j : ℕ} (hi : i < l.numValues) (hj : j < i / l.bucketSize) : l.count j = l.bucketSize := by
  have hle : (j + 1) * l.bucketSize ≤ i / l.bucketSize * l.bucketSize := Nat.mul_le_mul_right _ hj
  have hdiv := Nat.div_mul_le_self i l.bucketSize
  rw [Nat.succ_mul] at hle
  unfold Layout.count
  omega

theorem mod_lt_count (hb : 0 < l.bucketSize) (hi : i < l.numValues) :
    i % l.bucketSize < l.count (i / l.bucketSize) := by
  have hmod := Nat.mod_lt i hb
  have hsplit := Nat.div_add_mod' i l.bucketSize
  unfold Layout.count
  omega

/-- No more values than the header says. -/
theorem length_flatten_le {bs : List (List Utf8)} (h : ∀ j b, bs[j]? = some b → b.length ≤ l.count (k + j)) :
    bs.flatten.length ≤ l.numValues - k * l.bucketSize := by
  induction bs generalizing k with
  | nil => exact Nat.zero_le _
  | cons b bs ih =>
    have hfirst := h 0 b rfl
    have hrest := ih (k := k + 1) fun j b' hj => by
      have hnext := h (j + 1) b' hj
      rwa [← Nat.add_assoc, Nat.add_right_comm] at hnext
    rw [Nat.succ_mul] at hrest
    rw [Nat.add_zero, Layout.count] at hfirst
    rw [flatten_cons, length_append]
    omega

/-! ## The two readers -/

/-- The full decoder on the buckets up to the ordinal's own. -/
def decodeUpTo (data : Bytes) (l : Layout) (i : ℕ) : Result (List Utf8) :=
  readBuckets .v2 data l 0 (l.offsets.take (i / l.bucketSize + 1))

theorem pos_of_isPowerOfTwo {n : ℕ} (h : isPowerOfTwo n = true) : 0 < n := by
  refine Nat.pos_of_ne_zero fun hn => ?_
  subst hn
  cases h

/-- What `get_v2` does once the header is good. -/
theorem getV2_eq (hmarker : leAt data 4 0 = 2) (hpow : isPowerOfTwo (leAt data 4 4) = true) (hi : i < leAt data 4 8)
    (hl : readLayout data = .ok l) :
    getV2 data i = (checkBuckets data l 0 (i / l.bucketSize + 1) >>= fun _ =>
      readFirst data l.offsetsStart (12 + l.offsets.getD (i / l.bucketSize) 0) >>= fun (base, pos) =>
        getEntry data l.offsetsStart base (i % l.bucketSize) pos >>= fun entry => .ok (some entry)) := by
  obtain ⟨-, -, -, hlen, -, -⟩ := readLayout_ok hl
  unfold getV2
  rw [if_neg (by omega), if_neg (not_not.2 hmarker), hpow, if_neg (by simp), if_neg (by omega), hl]
  rfl

theorem getElem?_offsets (hl : readLayout data = .ok l) (hk : k < divCeil l.numValues l.bucketSize) :
    l.offsets[k]? = some (l.offsets.getD k 0) := by
  obtain ⟨-, -, -, -, hoffsets, -⟩ := readLayout_ok hl
  have hlt : k < l.offsets.length := by
    rw [hoffsets, length_map, length_range]
    exact hk
  rw [getD_eq_getElem?_getD, getElem?_eq_getElem hlt]
  rfl

/-- Where the buckets up to an ordinal's own decode, `get_v2` returns the value
at that ordinal. -/
theorem getV2_of_decodeUpTo (hmarker : leAt data 4 0 = 2) (hpow : isPowerOfTwo (leAt data 4 4) = true)
    (hi : i < leAt data 4 8) (hl : readLayout data = .ok l) (h : decodeUpTo data l i = .ok values) :
    ∃ s, values[i]? = some s ∧ getV2 data i = .ok (some s) := by
  obtain ⟨hsize, hnum, -⟩ := readLayout_ok hl
  have hb : 0 < l.bucketSize := hsize ▸ pos_of_isPowerOfTwo hpow
  have hi' : i < l.numValues := hnum ▸ hi
  have hk : i / l.bucketSize < divCeil l.numValues l.bucketSize :=
    (lt_divCeil hb).2 ((Nat.div_mul_le_self i l.bucketSize).trans_lt hi')
  obtain ⟨bs, rfl, -, hall⟩ := readBuckets_ok h
  have hbucket : ∀ j ≤ i / l.bucketSize, ∃ bucket, bs[j]? = some bucket ∧
      readBucket .v2 data l.offsetsStart (l.count j) (12 + l.offsets.getD j 0) = .ok (bucket, l.expectedEnd j) := by
    intro j hj
    have hget : (l.offsets.take (i / l.bucketSize + 1))[j]? = some (l.offsets.getD j 0) := by
      rw [getElem?_take_of_lt (by omega), getElem?_offsets hl (by omega)]
    simpa using hall j _ hget
  obtain ⟨bucket, hget, hread⟩ := hbucket _ le_rfl
  have hlen := (skipV2Bucket_of_readBucket hread).2
  have hmod := mod_lt_count hb hi'
  obtain ⟨first, at', rest, rfl, hfirst, hrest⟩ := readBucket_ok.1 hread
  obtain ⟨s, hs, hentry⟩ := @getEntry_of_readEntries data _ _ _ _ _ _ (i % l.bucketSize) hrest (by omega)
  refine ⟨s, ?_, ?_⟩
  · have hfull : ∀ j < i / l.bucketSize, ∃ b, bs[j]? = some b ∧ b.length = l.bucketSize := by
      intro j hj
      obtain ⟨b, hgetb, hreadb⟩ := hbucket j (by omega)
      have hlenb := (skipV2Bucket_of_readBucket hreadb).2
      have hcount := count_of_lt hi' hj
      exact ⟨b, hgetb, by omega⟩
    rw [← hs, ← getElem?_flatten hfull hget (by omega), Nat.div_add_mod']
  · have hcheck : checkBuckets data l 0 (i / l.bucketSize + 1) = .ok () := by
      refine checkBuckets_ok.2 fun j hj => ?_
      obtain ⟨b, -, hreadb⟩ := hbucket j (by omega)
      rw [Nat.zero_add]
      exact (skipV2Bucket_of_readBucket hreadb).1
    rw [getV2_eq hmarker hpow hi hl, hcheck, ok_bind, hfirst, ok_bind]
    show (getEntry data l.offsetsStart first (i % l.bucketSize) at' >>= _) = _
    rw [hentry]
    rfl

/-- The base of the ordinal's bucket and the ordinal's own record, by the full
decoder's rules; the records between are skipped. -/
def readRecord (data : Bytes) (l : Layout) (i : ℕ) : Result Utf8 := do
  let (base, pos) ← readFirst data l.offsetsStart (12 + l.offsets.getD (i / l.bucketSize) 0)
  if i % l.bucketSize = 0 then return base
  let pos ← skipEntries data l.offsetsStart (i % l.bucketSize - 1) pos
  let (entry, _) ← readEntry data l.offsetsStart base pos
  return entry

theorem getEntry_succ {steps : ℕ} {entry : Utf8} (h : getEntry data offsetsStart base (steps + 1) pos = .ok entry) :
    ∃ at' stop, skipEntries data offsetsStart steps pos = .ok at' ∧ readEntry data offsetsStart base at' = .ok (entry, stop) := by
  induction steps generalizing pos with
  | zero =>
    rw [getEntry, bind_eq_ok] at h
    obtain ⟨⟨p, n, q⟩, hlen, hsuffix⟩ := h
    exact ⟨pos, q + n, rfl, readEntry_ok.2 ⟨p, n, q, hlen, hsuffix, rfl⟩⟩
  | succ steps ih =>
    rw [getEntry, bind_eq_ok] at h
    obtain ⟨⟨p, n, q⟩, hlen, hrest⟩ := h
    obtain ⟨at', stop, hskip, hread⟩ := ih hrest
    exact ⟨at', stop, skipEntries_succ.2 ⟨p, n, q, hlen, hskip⟩, hread⟩

/-- A value that `get_v2` returns: the header is good, the buckets up to the
ordinal's own end where they have to, and the record decodes. -/
theorem getV2_some {s : Utf8} (h : getV2 data i = .ok (some s)) :
    leAt data 4 0 = 2 ∧ isPowerOfTwo (leAt data 4 4) = true ∧ i < leAt data 4 8 ∧ ∃ l, readLayout data = .ok l ∧
      checkBuckets data l 0 (i / l.bucketSize + 1) = .ok () ∧ readRecord data l i = .ok s := by
  have hdef := h
  unfold getV2 at h
  split_ifs at h with hshort hmarker hpow hlow
  · cases h
  rw [bind_eq_ok] at h
  obtain ⟨l, hl, -⟩ := h
  have hmarker' : leAt data 4 0 = 2 := not_not.1 hmarker
  have hpow' : isPowerOfTwo (leAt data 4 4) = true := by simpa using hpow
  refine ⟨hmarker', hpow', by omega, l, hl, ?_⟩
  rw [getV2_eq hmarker' hpow' (by omega) hl, bind_eq_ok] at hdef
  obtain ⟨⟨⟩, hcheck, hdef⟩ := hdef
  rw [bind_eq_ok] at hdef
  obtain ⟨⟨base, pos⟩, hfirst, hdef⟩ := hdef
  rw [bind_eq_ok] at hdef
  obtain ⟨entry, hentry, hdef⟩ := hdef
  cases hdef
  refine ⟨hcheck, ?_⟩
  unfold readRecord
  rw [hfirst, ok_bind]
  cases hsteps : i % l.bucketSize with
  | zero =>
    rw [hsteps] at hentry
    exact hentry
  | succ steps =>
    rw [hsteps] at hentry
    obtain ⟨at', stop, hskip, hread⟩ := getEntry_succ hentry
    show (skipEntries data l.offsetsStart steps pos >>= _) = _
    rw [hskip, ok_bind, hread]
    rfl

theorem length_le_of_readBuckets (hl : readLayout data = .ok l) (hb : 0 < l.bucketSize)
    (h : readBuckets .v2 data l 0 l.offsets = .ok values) : values.length ≤ l.numValues := by
  obtain ⟨bs, rfl, hlen, hall⟩ := readBuckets_ok h
  have hle : ∀ j b, bs[j]? = some b → b.length ≤ l.count (0 + j) := by
    intro j b hj
    have hlt : j < l.offsets.length := hlen ▸ (List.getElem?_eq_some_iff.1 hj).1
    obtain ⟨bucket, hget, hread⟩ := hall j _ (getElem?_eq_getElem hlt)
    cases hj.symm.trans hget
    have hcount := (skipV2Bucket_of_readBucket hread).2
    obtain ⟨-, -, -, -, hoffsets, -⟩ := readLayout_ok hl
    rw [hoffsets, length_map, length_range] at hlt
    have hpos := count_pos hb hlt
    rw [Nat.zero_add] at hcount ⊢
    omega
  have hflat := length_flatten_le hle
  omega

/-- Random access into a version 2 buffer returns what the full decoder would:
whenever the full decoder accepts the buffer, and for a returned value whenever
it decodes the buckets that far. It can only be stopped there by the string of
another entry; the ordinal's own record always decodes to the value. -/
theorem getV2_agrees (data : Bytes) (i : ℕ) (hmarker : leAt data 4 0 = 2) :
    (∀ d, deserialize data = .ok d → d ≠ [] → getV2 data i = .ok d[i]?) ∧
      ∀ s, getV2 data i = .ok (some s) → ∃ l, readLayout data = .ok l ∧ readRecord data l i = .ok s ∧
        (∀ values, decodeUpTo data l i = .ok values → values[i]? = some s) ∧
        ∀ e, decodeUpTo data l i = .error e → e.IsString := by
  constructor
  · intro d h hne
    unfold deserialize at h
    rw [hmarker] at h
    split_ifs at h with hshort
    unfold deserializeV2 at h
    split_ifs at h with hzero hsize hpow
    · cases h
      exact absurd rfl hne
    obtain ⟨l, hl, hread⟩ := bind_eq_ok.1 h
    have hpow' : isPowerOfTwo (leAt data 4 4) = true := by simpa using hpow
    obtain ⟨hsize', hnum, -⟩ := readLayout_ok hl
    by_cases hi : i < leAt data 4 8
    · obtain ⟨values, htake, htaken⟩ := readBuckets_take (m := i / l.bucketSize + 1) hread
      obtain ⟨s, hs, hget⟩ := getV2_of_decodeUpTo hmarker hpow' hi hl htake
      obtain ⟨rest, rfl⟩ := htaken
      rw [hget, getElem?_append_left (List.getElem?_eq_some_iff.1 hs).1, hs]
    · have hlen := length_le_of_readBuckets hl (by omega) hread
      rw [getElem?_eq_none (by omega)]
      unfold getV2
      rw [if_neg hshort, if_neg (not_not.2 hmarker), if_neg hpow, if_pos (by omega)]
  · intro s hs
    obtain ⟨-, hpow, hi, l, hl, hcheck, hrecord⟩ := getV2_some hs
    refine ⟨l, hl, hrecord, fun values hvalues => ?_, fun e he => ?_⟩
    · obtain ⟨s', hget, hread⟩ := getV2_of_decodeUpTo hmarker hpow hi hl hvalues
      cases hs.symm.trans hread
      exact hget
    · have hdecode := @readBuckets_of_skip data l 0 (l.offsets.take (i / l.bucketSize + 1))
        fun j offset hj => by
          have hlt := (List.getElem?_eq_some_iff.1 hj).1
          rw [length_take] at hlt
          rw [getElem?_take_of_lt (by omega)] at hj
          have hskip := checkBuckets_ok.1 hcheck j (by omega)
          rw [Nat.zero_add] at hskip ⊢
          rwa [getD_eq_getElem?_getD, hj] at hskip
      rcases hdecode with ⟨values, hvalues⟩ | ⟨e', he', hstring⟩
      · cases he.symm.trans hvalues
      · cases he.symm.trans he'
        exact hstring

/-- Two buckets of one entry each, `a` and `b`. -/
def pairBuffer : Bytes := u32le 2 ++ u32le 1 ++ u32le 2 ++ [1, 0x61, 1, 0x62] ++ u32le 0 ++ u32le 2

theorem getV2_agrees_pair : deserialize pairBuffer = .ok [⟨[0x61], rfl⟩, ⟨[0x62], rfl⟩] ∧ getV2 pairBuffer 1 = .ok (some ⟨[0x62], rfl⟩) := by
  have hall : deserialize pairBuffer = .ok [⟨[0x61], rfl⟩, ⟨[0x62], rfl⟩] := by decide +kernel
  exact ⟨hall, (getV2_agrees pairBuffer 1 (by decide +kernel)).1 _ hall nofun⟩

/-- The same with a first entry that is no string. -/
def brokenBuffer : Bytes := u32le 2 ++ u32le 1 ++ u32le 2 ++ [1, 0xFF, 1, 0x62] ++ u32le 0 ++ u32le 2

/-- `get_v2` returns the second entry; the decoder does not get past the
first. -/
theorem getV2_past_broken_entry :
    getV2 brokenBuffer 1 = .ok (some ⟨[0x62], rfl⟩) ∧
      ∀ l, readLayout brokenBuffer = .ok l → decodeUpTo brokenBuffer l 1 = .error .invalidUtf8 := by
  refine ⟨by decide +kernel, fun l hl => ?_⟩
  have hlayout : readLayout brokenBuffer = .ok ⟨1, 2, [0, 2], 16⟩ := by decide +kernel
  cases hl.symm.trans hlayout
  decide +kernel

end FerroDruid.Dict
