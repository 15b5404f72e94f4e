import FerroDruid.Dict.FrontCoded
/-!
# What the writers write, the reader reads

The writers cut an entry after the bytes it shares with its reference; the
reader takes such a prefix only where a character of the reference ends. So a
dictionary is read back exactly when every cut falls between characters, and
the bucket size survives the four bytes the header has for it.
-/

namespace FerroDruid.Dict

open Lib List

variable {data : Bytes} {v : Version} {pos offsetsStart : ℕ} {ref cur : Utf8} {values : List Utf8} {l : Layout}

/-! ## Integers -/

theorem or_shift {result shift x : ℕ} (hresult : result < 2 ^ shift) (hx : x * 2 ^ shift < 2 ^ 32) :
    result ||| (x <<< shift) % 2 ^ 32 = result + x * 2 ^ shift := by
  rw [Nat.shiftLeft_eq, Nat.mod_eq_of_lt hx, Nat.or_comm, Nat.mul_comm, ← Nat.two_pow_add_eq_or_of_lt hresult, Nat.add_comm]

theorem readVintLoop_last {fuel val result shift pos : ℕ} (hval : val < 128) (hresult : result < 2 ^ shift)
    (hfits : val * 2 ^ shift < 2 ^ 32) (h : At data pos [UInt8.ofNat val]) :
    readVintLoop data (fuel + 1) result shift pos = .ok (result + val * 2 ^ shift, pos + 1) := by
  have hbyte : (UInt8.ofNat val).toNat = val := by simp; omega
  unfold readVintLoop
  rw [(At.cons_iff.1 h).1]
  simp only [flag_eq_zero_iff, toNat_low_bits, hbyte, if_pos hval]
  rw [Nat.mod_eq_of_lt hval, or_shift hresult hfits]

theorem readVintLoop_written {fuel val result shift pos : ℕ} (hval : val < 128 ^ (fuel + 1)) (hresult : result < 2 ^ shift)
    (hfits : val * 2 ^ shift < 2 ^ 32) (h : At data pos (writeVintLoop fuel val)) :
    readVintLoop data (fuel + 1) result shift pos = .ok (result + val * 2 ^ shift, pos + (writeVintLoop fuel val).length) := by
  induction fuel generalizing val result shift pos with
  | zero => exact readVintLoop_last (by simpa using hval) hresult hfits h
  | succ fuel ih =>
    unfold writeVintLoop at h ⊢
    split_ifs at h ⊢ with hbig
    · obtain ⟨hget, hrest⟩ := At.cons_iff.1 h
      have hbyte : (UInt8.ofNat val ||| 0x80).toNat = val % 128 + 128 := by
        rw [toNat_set_flag]
        simp
      -- the value splits into its low seven bits and the rest
      have hsplit : val % 128 * 2 ^ shift + val / 128 * 2 ^ (shift + 7) = val * 2 ^ shift := by
        conv_rhs => rw [← Nat.mod_add_div val 128]
        ring
      have hlow : val % 128 * 2 ^ shift < 2 ^ 32 := by omega
      have hnext : result + val % 128 * 2 ^ shift < 2 ^ (shift + 7) := by
        have hmod : val % 128 * 2 ^ shift ≤ 127 * 2 ^ shift := Nat.mul_le_mul_right _ (by omega)
        rw [Nat.pow_add]
        omega
      rw [Nat.shiftRight_eq_div_pow, show 2 ^ 7 = 128 from rfl] at hrest ⊢
      have hread := @ih (val / 128) _ (shift + 7) _ (by rw [Nat.pow_succ] at hval; omega) hnext (by omega) hrest
      unfold readVintLoop
      rw [hget]
      simp only [flag_eq_zero_iff, toNat_low_bits, hbyte]
      rw [if_neg (by omega), show (val % 128 + 128) % 128 = val % 128 by omega, or_shift hresult hlow, hread]
      refine congrArg _ (Prod.ext ?_ ?_)
      · show result + _ + _ = _
        omega
      · show pos + 1 + _ = pos + (_ + 1)
        rw [Nat.add_assoc, Nat.add_comm 1]
    · exact readVintLoop_last (by omega) hresult hfits h

/-- An integer reads back as it was written, wherever it stands. -/
theorem readVint_written {val : ℕ} (hval : val < 2 ^ 32) (h : At data pos (writeVint val)) :
    readVint data pos = .ok (val, pos + (writeVint val).length) := by
  unfold writeVint at h ⊢
  rw [Nat.mod_eq_of_lt hval] at h ⊢
  have hread := @readVintLoop_written _ 4 _ 0 0 _ (by omega) (by omega) (by omega) h
  simpa [readVint] using hread

theorem writeVintLoop_ne_nil (fuel val : ℕ) : writeVintLoop fuel val ≠ [] := by
  cases fuel with
  | zero => simp [writeVintLoop]
  | succ fuel =>
    unfold writeVintLoop
    split_ifs
    · simp
    · simp

theorem length_writeVint_pos (val : ℕ) : 0 < (writeVint val).length := length_pos_of_ne_nil (writeVintLoop_ne_nil 4 _)

/-! ## Entries -/

theorem commonPrefixLen_le (a b : Bytes) : commonPrefixLen a b ≤ a.length := by
  refine (List.takeWhile_prefix _).length_le.trans ?_
  simp

theorem take_commonPrefixLen (a b : Bytes) : a.take (commonPrefixLen a b) = b.take (commonPrefixLen a b) := by
  induction a generalizing b with
  | nil => simp [commonPrefixLen]
  | cons x a ih =>
    cases b with
    | nil => simp [commonPrefixLen]
    | cons y b =>
      have hb := ih b
      unfold commonPrefixLen at hb ⊢
      by_cases hxy : x = y
      · subst hxy
        simpa using hb
      · simp [hxy]

/-- The entry from what it shares with the reference and what it does not. -/
theorem take_append_drop_commonPrefixLen (a b : Bytes) :
    b = a.take (commonPrefixLen a b) ++ b.drop (commonPrefixLen a b) := by
  rw [take_commonPrefixLen, take_append_drop]

theorem readFirst_written {first : Utf8} (hlen : first.bytes.length < 2 ^ 32)
    (h : At data pos (writeVint first.bytes.length ++ first.bytes))
    (hend : pos + (writeVint first.bytes.length ++ first.bytes).length ≤ offsetsStart) :
    readFirst data offsetsStart pos = .ok (first, pos + (writeVint first.bytes.length ++ first.bytes).length) := by
  obtain ⟨hvint, hbytes⟩ := At.append_iff.1 h
  rw [length_append, ← Nat.add_assoc] at hend ⊢
  have hslice : slice data (pos + (writeVint first.bytes.length).length) first.bytes.length = first.bytes := hbytes.take_eq
  unfold readFirst
  rw [readVint_written hlen hvint]
  simp only [bind, Except.bind, pure, Except.pure]
  rw [if_neg (by omega), hslice, Utf8.ofBytes?_bytes]

theorem readLengths_written (href : ref.bytes.length < 2 ^ 32) (hcur : cur.bytes.length < 2 ^ 32)
    (h : At data pos (writeEntry ref cur)) (hend : pos + (writeEntry ref cur).length ≤ offsetsStart) :
    ∃ at', readLengths data offsetsStart pos =
        .ok (commonPrefixLen ref.bytes cur.bytes, (cur.bytes.drop (commonPrefixLen ref.bytes cur.bytes)).length, at') ∧
      At data at' (cur.bytes.drop (commonPrefixLen ref.bytes cur.bytes)) ∧
      at' + (cur.bytes.drop (commonPrefixLen ref.bytes cur.bytes)).length = pos + (writeEntry ref cur).length := by
  have hp := commonPrefixLen_le ref.bytes cur.bytes
  simp only [writeEntry] at h hend ⊢
  generalize commonPrefixLen ref.bytes cur.bytes = p at *
  have hsuffix : (cur.bytes.drop p).length < 2 ^ 32 := by
    rw [length_drop]
    omega
  obtain ⟨hlengths, hat⟩ := At.append_iff.1 h
  obtain ⟨hplen, hlen⟩ := At.append_iff.1 hlengths
  simp only [length_append, ← Nat.add_assoc] at hend hat ⊢
  refine ⟨_, ?_, hat, rfl⟩
  unfold readLengths
  rw [readVint_written (by omega) hplen]
  simp only [bind, Except.bind]
  rw [readVint_written hsuffix hlen]
  simp only [pure, Except.pure]
  rw [if_neg (by omega)]

/-- A suffix reads back when the cut falls between characters of the
reference. -/
theorem readSuffix_written (h : At data pos (cur.bytes.drop (commonPrefixLen ref.bytes cur.bytes))) :
    readSuffix data ref (commonPrefixLen ref.bytes cur.bytes) (cur.bytes.drop (commonPrefixLen ref.bytes cur.bytes)).length pos =
      if isCharBoundary ref.bytes (commonPrefixLen ref.bytes cur.bytes) then .ok cur
      else .error (.prefixInsideCharacter (commonPrefixLen ref.bytes cur.bytes)) := by
  have hp := commonPrefixLen_le ref.bytes cur.bytes
  have hsplit := take_append_drop_commonPrefixLen ref.bytes cur.bytes
  generalize commonPrefixLen ref.bytes cur.bytes = p at *
  have hslice : slice data pos (cur.bytes.drop p).length = cur.bytes.drop p := h.take_eq
  unfold readSuffix
  rw [if_neg (by omega)]
  split_ifs with hb
  · have hsuffix := Utf8.valid_of_append hsplit (validUtf8_take ref.valid hb)
    rw [hslice, Utf8.ofBytes?_bytes ⟨cur.bytes.drop p, hsuffix⟩]
    exact congrArg _ (Utf8.ext hsplit.symm)
  · rfl

theorem readEntry_written (href : ref.bytes.length < 2 ^ 32) (hcur : cur.bytes.length < 2 ^ 32)
    (h : At data pos (writeEntry ref cur)) (hend : pos + (writeEntry ref cur).length ≤ offsetsStart) :
    readEntry data offsetsStart ref pos =
      if isCharBoundary ref.bytes (commonPrefixLen ref.bytes cur.bytes) then .ok (cur, pos + (writeEntry ref cur).length)
      else .error (.prefixInsideCharacter (commonPrefixLen ref.bytes cur.bytes)) := by
  obtain ⟨at', hlengths, hat, hstop⟩ := readLengths_written href hcur h hend
  unfold readEntry
  rw [hlengths]
  simp only [bind, Except.bind, pure, Except.pure]
  rw [readSuffix_written hat]
  split_ifs with hb
  · simp only [hstop]
  · rfl

/-! ## Buckets -/

/-- Every cut behind `ref` falls between characters. -/
def alignedFrom (v : Version) : Utf8 → List Utf8 → Bool
  | _, [] => true
  | ref, cur :: rest =>
    isCharBoundary ref.bytes (commonPrefixLen ref.bytes cur.bytes) && alignedFrom v (v.reference ref cur) rest

/-- Every cut of a bucket falls between characters. -/
def Aligned (v : Version) : List Utf8 → Prop
  | [] => True
  | first :: rest => alignedFrom v first rest = true

instance (v : Version) : ∀ bucket, Decidable (Aligned v bucket)
  | [] => .isTrue trivial
  | _ :: _ => inferInstanceAs (Decidable (_ = true))

theorem length_reference (v : Version) {n : ℕ} (href : ref.bytes.length < n) (hcur : cur.bytes.length < n) :
    (v.reference ref cur).bytes.length < n := by
  cases v with
  | v1 => exact hcur
  | v2 => exact href

theorem readEntries_written {rest : List Utf8} (href : ref.bytes.length < 2 ^ 32) (hrest : ∀ s ∈ rest, s.bytes.length < 2 ^ 32)
    (h : At data pos (writeEntries v ref rest)) (hend : pos + (writeEntries v ref rest).length ≤ offsetsStart) :
    ∃ e, readEntries v data offsetsStart rest.length ref pos =
      if alignedFrom v ref rest then .ok (rest, pos + (writeEntries v ref rest).length) else .error e := by
  induction rest generalizing ref pos with
  | nil => exact ⟨.tooShort, rfl⟩
  | cons cur rest ih =>
    obtain ⟨hcur, hrest⟩ := forall_mem_cons.1 hrest
    rw [writeEntries] at h hend
    obtain ⟨hentry, hrestAt⟩ := At.append_iff.1 h
    rw [length_append, ← Nat.add_assoc] at hend
    have hread := readEntry_written href hcur hentry (show _ ≤ offsetsStart by omega)
    by_cases hb : isCharBoundary ref.bytes (commonPrefixLen ref.bytes cur.bytes) = true
    · obtain ⟨e, he⟩ := ih (length_reference v href hcur) hrest hrestAt hend
      refine ⟨e, ?_⟩
      rw [length_cons, readEntries, hread, if_pos hb, alignedFrom, hb, Bool.true_and]
      simp only [bind, Except.bind]
      rw [he]
      split_ifs
      · simp only [pure, Except.pure, writeEntries, length_append, Nat.add_assoc]
      · rfl
    · refine ⟨.prefixInsideCharacter (commonPrefixLen ref.bytes cur.bytes), ?_⟩
      rw [length_cons, readEntries, hread, if_neg hb, alignedFrom, Bool.eq_false_iff.2 hb, Bool.false_and]
      rfl

/-- A bucket reads back exactly when its cuts fall between characters. -/
theorem readBucket_written {bucket : List Utf8} (hne : bucket ≠ []) (hlen : ∀ s ∈ bucket, s.bytes.length < 2 ^ 32)
    (h : At data pos (writeBucket v bucket)) (hend : pos + (writeBucket v bucket).length ≤ offsetsStart) :
    ∃ e, readBucket v data offsetsStart bucket.length pos =
      if Aligned v bucket then .ok (bucket, pos + (writeBucket v bucket).length) else .error e := by
  cases bucket with
  | nil => exact absurd rfl hne
  | cons first rest =>
    obtain ⟨hfirst, hrest⟩ := forall_mem_cons.1 hlen
    rw [writeBucket] at h hend
    obtain ⟨hfirstAt, hrestAt⟩ := At.append_iff.1 h
    rw [length_append, ← Nat.add_assoc] at hend
    obtain ⟨e, he⟩ := readEntries_written hfirst hrest hrestAt hend
    refine ⟨e, ?_⟩
    unfold readBucket
    rw [readFirst_written hfirst hfirstAt (by omega)]
    simp only [bind, Except.bind, length_cons, Nat.add_sub_cancel]
    rw [he]
    by_cases hb : alignedFrom v first rest = true
    · rw [if_pos hb, if_pos (show Aligned v (first :: rest) from hb)]
      simp only [pure, Except.pure, writeBucket, length_append, Nat.add_assoc]
    · rw [if_neg hb, if_neg (show ¬ Aligned v (first :: rest) from hb)]

/-! ## The cut into buckets -/

theorem lt_divCeil {n d k : ℕ} (hd : 0 < d) : k < divCeil n d ↔ k * d < n := by
  unfold divCeil
  rw [Nat.lt_div_iff_mul_lt hd]
  omega

@[simp] theorem length_buckets (bucketSize : ℕ) (values : List Utf8) :
    (buckets bucketSize values).length = divCeil values.length bucketSize := by simp [buckets]

theorem getElem_buckets {bucketSize k : ℕ} (hk : k < (buckets bucketSize values).length) :
    (buckets bucketSize values)[k] = (values.drop (k * bucketSize)).take bucketSize := by simp [buckets]

theorem flatten_chunks (bucketSize m : ℕ) (values : List Utf8) :
    ((List.range m).map fun idx => (values.drop (idx * bucketSize)).take bucketSize).flatten = values.take (m * bucketSize) := by
  induction m with
  | zero => simp
  | succ m ih =>
    rw [range_succ, map_append, flatten_append, ih, Nat.succ_mul, take_add]
    simp

theorem flatten_buckets {bucketSize : ℕ} (hb : 0 < bucketSize) (values : List Utf8) :
    (buckets bucketSize values).flatten = values := by
  have hall : values.length ≤ divCeil values.length bucketSize * bucketSize := by
    by_contra hlt
    exact absurd ((lt_divCeil hb).2 (Nat.lt_of_not_le hlt)) (Nat.lt_irrefl _)
  rw [buckets, flatten_chunks, take_of_length_le hall]

theorem length_getElem_buckets {bucketSize k : ℕ} (hk : k < (buckets bucketSize values).length) :
    (buckets bucketSize values)[k].length = min (k * bucketSize + bucketSize) values.length - k * bucketSize := by
  rw [getElem_buckets hk, length_take, length_drop]
  omega

theorem ne_nil_of_mem_buckets {bucketSize : ℕ} (hb : 0 < bucketSize) {bucket : List Utf8}
    (h : bucket ∈ buckets bucketSize values) : bucket ≠ [] := by
  obtain ⟨k, hk, rfl⟩ := mem_iff_getElem.1 h
  have hlt := (lt_divCeil hb).1 (length_buckets bucketSize values ▸ hk)
  refine ne_nil_of_length_pos ?_
  rw [length_getElem_buckets hk]
  omega

theorem mem_of_mem_buckets {bucketSize : ℕ} (hb : 0 < bucketSize) {bucket : List Utf8} (h : bucket ∈ buckets bucketSize values)
    {s : Utf8} (hs : s ∈ bucket) : s ∈ values :=
  flatten_buckets hb values ▸ mem_flatten.2 ⟨bucket, h, hs⟩

/-! ## The offset table -/

theorem length_offsetsFrom (start : ℕ) (bs : List Bytes) : (offsetsFrom start bs).length = bs.length := by
  induction bs generalizing start with
  | nil => rfl
  | cons b bs ih => simp [offsetsFrom, ih]

theorem offsetsFrom_le {start : ℕ} {bs : List Bytes} {o : ℕ} (h : o ∈ offsetsFrom start bs) : o ≤ start + bs.flatten.length := by
  induction bs generalizing start with
  | nil => cases h
  | cons b bs ih =>
    rw [flatten_cons, length_append]
    rcases mem_cons.1 h with rfl | h
    · omega
    · have := ih h
      omega

theorem offsetsFrom_increasing {start : ℕ} {bs : List Bytes} (hne : ∀ b ∈ bs, b ≠ []) :
    ∀ p ∈ (offsetsFrom start bs).zip (offsetsFrom start bs).tail, p.1 < p.2 := by
  induction bs generalizing start with
  | nil => nofun
  | cons b bs ih =>
    obtain ⟨hb, hne⟩ := forall_mem_cons.1 hne
    have hpos := length_pos_of_ne_nil hb
    cases bs with
    | nil => nofun
    | cons b' bs =>
      simp only [offsetsFrom, tail_cons, zip_cons_cons, forall_mem_cons]
      exact ⟨by omega, ih hne⟩

theorem getLastD_offsetsFrom_lt {start d : ℕ} {bs : List Bytes} (hne : ∀ b ∈ bs, b ≠ []) (hd : d < start + bs.flatten.length) :
    (offsetsFrom start bs).getLastD d < start + bs.flatten.length := by
  induction bs generalizing start d with
  | nil => exact hd
  | cons b bs ih =>
    obtain ⟨hb, hne⟩ := forall_mem_cons.1 hne
    have hpos := length_pos_of_ne_nil hb
    rw [offsetsFrom, getLastD_cons, flatten_cons, length_append, ← Nat.add_assoc]
    exact ih hne (by omega)

theorem validateBucketOffsets_written {bs : List Bytes} (hne : ∀ b ∈ bs, b ≠ []) :
    validateBucketOffsets (offsetsFrom 0 bs) bs.flatten.length = .ok () := by
  have hincreasing := @offsetsFrom_increasing 0 bs hne
  cases bs with
  | nil => rfl
  | cons b bs =>
    have hpos := length_pos_of_ne_nil (hne b mem_cons_self)
    have hlast := @getLastD_offsetsFrom_lt 0 0 _ hne (by
      rw [flatten_cons, length_append]
      omega)
    rw [Nat.zero_add] at hlast
    unfold validateBucketOffsets
    rw [find?_eq_none.2 fun p hp => by simpa using hincreasing p hp]
    simp only [if_neg (Nat.not_le.2 hlast)]
    rfl

theorem at_table {offsets : List ℕ} (h : At data pos (offsets.flatMap u32le)) {i : ℕ} (hi : i < offsets.length) :
    At data (pos + i * 4) (u32le offsets[i]) := by
  induction offsets generalizing pos i with
  | nil => simp at hi
  | cons o offsets ih =>
    obtain ⟨ho, hrest⟩ := At.append_iff.1 h
    cases i with
    | zero => simpa using ho
    | succ i =>
      have hnext := ih hrest (Nat.lt_of_succ_lt_succ hi)
      rw [show pos + (i + 1) * 4 = pos + 4 + i * 4 by omega]
      exact hnext

theorem readTable_written {offsets : List ℕ} (hsmall : ∀ o ∈ offsets, o < 2 ^ 32) (h : At data pos (offsets.flatMap u32le)) :
    (List.range offsets.length).map (fun i => leAt data 4 (pos + i * 4)) = offsets := by
  refine ext_getElem (by simp) fun i hi hi' => ?_
  rw [getElem_map, getElem_range, leAt_of_at (at_table h hi')]
  exact Nat.mod_eq_of_lt (hsmall _ (getElem_mem hi'))

/-! ## Every bucket -/

theorem expectedEnd_written {before : List ℕ} {start : ℕ} {b : Bytes} {bs : List Bytes}
    (hoffsets : l.offsets = before ++ offsetsFrom start (b :: bs))
    (hend : 12 + start + (b :: bs).flatten.length = l.offsetsStart) :
    l.expectedEnd before.length = 12 + start + b.length := by
  unfold Layout.expectedEnd
  rw [hoffsets]
  cases bs with
  | nil =>
    rw [if_neg (by simp [offsetsFrom])]
    simp only [flatten_cons, flatten_nil, append_nil] at hend
    omega
  | cons b' bs =>
    simp [offsetsFrom, Nat.add_assoc]

/-- Buckets read back exactly when the cuts of each fall between characters. -/
theorem readBuckets_written {bs : List (List Utf8)} {before : List ℕ} {start : ℕ}
    (hoffsets : l.offsets = before ++ offsetsFrom start (bs.map (writeBucket v)))
    (hcount : ∀ k (hk : k < bs.length), l.count (before.length + k) = bs[k].length) (hne : ∀ b ∈ bs, b ≠ [])
    (hlen : ∀ b ∈ bs, ∀ s ∈ b, s.bytes.length < 2 ^ 32) (h : At data (12 + start) (bs.map (writeBucket v)).flatten)
    (hend : 12 + start + (bs.map (writeBucket v)).flatten.length = l.offsetsStart) :
    ∃ e, readBuckets v data l before.length (offsetsFrom start (bs.map (writeBucket v))) =
      if ∀ b ∈ bs, Aligned v b then .ok bs.flatten else .error e := by
  induction bs generalizing before start with
  | nil => exact ⟨.tooShort, rfl⟩
  | cons b bs ih =>
    rw [map_cons] at hoffsets hend h ⊢
    have hstop := expectedEnd_written hoffsets hend
    obtain ⟨hb, hne⟩ := forall_mem_cons.1 hne
    obtain ⟨hlenb, hlen⟩ := forall_mem_cons.1 hlen
    rw [flatten_cons] at h hend
    obtain ⟨hbAt, hrestAt⟩ := At.append_iff.1 h
    rw [length_append] at hend
    obtain ⟨e, he⟩ := readBucket_written hb hlenb hbAt (show _ ≤ l.offsetsStart by omega)
    have hcount₀ : l.count before.length = b.length := hcount 0 (by simp)
    rw [offsetsFrom, readBuckets, hcount₀, he]
    simp only [forall_mem_cons]
    by_cases halign : Aligned v b
    · have hcounts : ∀ k (hk : k < bs.length), l.count ((before ++ [start]).length + k) = bs[k].length := by
        intro k hk
        have hk' := hcount (k + 1) (by simpa using hk)
        rw [getElem_cons_succ] at hk'
        rw [← hk', length_append, length_singleton, Nat.add_assoc, Nat.add_comm 1]
      have hnext : l.offsets = (before ++ [start]) ++ offsetsFrom (start + (writeBucket v b).length) (bs.map (writeBucket v)) := by
        rw [hoffsets, offsetsFrom, append_assoc]
        rfl
      obtain ⟨e', he'⟩ := ih hnext hcounts hne hlen (by rwa [← Nat.add_assoc]) (by omega)
      rw [length_append, length_singleton] at he'
      refine ⟨e', ?_⟩
      rw [if_pos halign]
      simp only [bind, Except.bind]
      rw [if_neg (by rw [hstop]; simp), he']
      by_cases hall : ∀ x ∈ bs, Aligned v x
      · rw [if_pos hall, if_pos ⟨halign, hall⟩]
        rfl
      · rw [if_neg hall, if_neg fun h => hall h.2]
    · refine ⟨e, ?_⟩
      rw [if_neg halign, if_neg fun h => halign h.1]
      rfl

/-! ## The dictionary -/

theorem length_writeEntries (v : Version) (ref : Utf8) (rest : List Utf8) : rest.length ≤ (writeEntries v ref rest).length := by
  induction rest generalizing ref with
  | nil => simp
  | cons cur rest ih =>
    have hrest := ih (v.reference ref cur)
    have hpos := length_writeVint_pos (commonPrefixLen ref.bytes cur.bytes)
    simp only [writeEntries, writeEntry, length_append, length_cons]
    omega

theorem length_writeBucket (v : Version) (bucket : List Utf8) : bucket.length ≤ (writeBucket v bucket).length := by
  cases bucket with
  | nil => simp
  | cons first rest =>
    have hrest := length_writeEntries v first rest
    have hpos := length_writeVint_pos first.bytes.length
    simp only [writeBucket, length_append, length_cons]
    omega

theorem length_flatten_writeBucket (v : Version) (bs : List (List Utf8)) :
    bs.flatten.length ≤ (bs.map (writeBucket v)).flatten.length := by
  induction bs with
  | nil => simp
  | cons b bs ih =>
    have hb := length_writeBucket v b
    simp only [map_cons, flatten_cons, length_append]
    omega

theorem writeBucket_ne_nil {bucket : List Utf8} (h : bucket ≠ []) : writeBucket v bucket ≠ [] :=
  ne_nil_of_length_pos ((length_pos_of_ne_nil h).trans_le (length_writeBucket v bucket))

/-- The bytes of the buckets. -/
def bucketData (v : Version) (bucketSize : ℕ) (values : List Utf8) : List Bytes :=
  (buckets bucketSize values).map (writeBucket v)

/-- What stands where in a serialized dictionary. -/
theorem serializeAs_parts (v : Version) (bucketSize : ℕ) (values : List Utf8) :
    At (serializeAs v bucketSize values) 0 (u32le v.marker) ∧ At (serializeAs v bucketSize values) 4 (u32le bucketSize) ∧
      At (serializeAs v bucketSize values) 8 (u32le values.length) ∧
      At (serializeAs v bucketSize values) 12 (bucketData v bucketSize values).flatten ∧
      At (serializeAs v bucketSize values) (12 + (bucketData v bucketSize values).flatten.length)
        ((offsetsFrom 0 (bucketData v bucketSize values)).flatMap u32le) := by
  have h : At (serializeAs v bucketSize values) 0 (serializeAs v bucketSize values) := prefix_rfl
  obtain ⟨h, htable⟩ := At.append_iff.1 h
  obtain ⟨h, hdata⟩ := At.append_iff.1 h
  obtain ⟨h, hcount⟩ := At.append_iff.1 h
  obtain ⟨hmarker, hsize⟩ := At.append_iff.1 h
  simp only [length_append, u32le, length_leBytes, Nat.zero_add] at hsize hcount hdata htable
  exact ⟨hmarker, hsize, hcount, hdata, htable⟩

theorem length_serializeAs (v : Version) (bucketSize : ℕ) (values : List Utf8) :
    (serializeAs v bucketSize values).length =
      12 + (bucketData v bucketSize values).flatten.length + divCeil values.length bucketSize * 4 := by
  have htable : ∀ offsets : List ℕ, (offsets.flatMap u32le).length = offsets.length * 4 := by
    intro offsets
    induction offsets with
    | nil => rfl
    | cons o offsets ih =>
      rw [flatMap_cons, length_append, ih, u32le, length_leBytes, length_cons]
      omega
  simp only [serializeAs, length_append, htable, length_offsetsFrom, length_map, length_buckets, u32le, length_leBytes,
    bucketData]

theorem marker_lt (v : Version) : v.marker < 2 ^ 32 := by
  cases v with
  | v1 => exact (by decide : 1 < 2 ^ 32)
  | v2 => exact (by decide : 2 < 2 ^ 32)

/-- The header as the reader sees it. -/
theorem header_serializeAs (v : Version) (bucketSize : ℕ) (hcount : values.length < 2 ^ 32) :
    leAt (serializeAs v bucketSize values) 4 0 = v.marker ∧ leAt (serializeAs v bucketSize values) 4 4 = bucketSize % 2 ^ 32 ∧
      leAt (serializeAs v bucketSize values) 4 8 = values.length := by
  obtain ⟨hmarker, hsize, hlen, -, -⟩ := serializeAs_parts v bucketSize values
  refine ⟨?_, leAt_of_at hsize, ?_⟩
  · rw [leAt_of_at hmarker]
    exact Nat.mod_eq_of_lt (marker_lt v)
  · rw [leAt_of_at hlen]
    exact Nat.mod_eq_of_lt hcount

theorem readLayout_written {bucketSize : ℕ} (hb : 0 < bucketSize) (hb32 : bucketSize < 2 ^ 32) (hcount : values.length < 2 ^ 32)
    (hsize : (serializeAs v bucketSize values).length < 2 ^ 32) :
    readLayout (serializeAs v bucketSize values) =
      .ok ⟨bucketSize, values.length, offsetsFrom 0 (bucketData v bucketSize values),
        12 + (bucketData v bucketSize values).flatten.length⟩ := by
  obtain ⟨-, hsizeAt, hlenAt⟩ := header_serializeAs v bucketSize hcount
  obtain ⟨-, -, -, -, htable⟩ := serializeAs_parts v bucketSize values
  have hlen := length_serializeAs v bucketSize values
  have hfew : values.length ≤ (bucketData v bucketSize values).flatten.length := by
    have hflat := length_flatten_writeBucket v (buckets bucketSize values)
    rwa [flatten_buckets hb] at hflat
  have hnum : (offsetsFrom 0 (bucketData v bucketSize values)).length = divCeil values.length bucketSize := by
    rw [length_offsetsFrom, bucketData, length_map, length_buckets]
  have hread := readTable_written (fun o ho => (offsetsFrom_le ho).trans_lt (by omega)) htable
  have hvalid := @validateBucketOffsets_written (bucketData v bucketSize values) fun b hb' => by
    obtain ⟨bucket, hbucket, rfl⟩ := mem_map.1 hb'
    exact writeBucket_ne_nil (ne_nil_of_mem_buckets hb hbucket)
  have hstart : (serializeAs v bucketSize values).length - divCeil values.length bucketSize * 4 =
      12 + (bucketData v bucketSize values).flatten.length := by omega
  unfold readLayout
  rw [hsizeAt, hlenAt, Nat.mod_eq_of_lt hb32]
  simp only [bind, Except.bind, pure, Except.pure]
  rw [if_neg (by omega), if_neg (by omega), hstart, ← hnum, hread, Nat.add_sub_cancel_left, hvalid]

theorem deserialize_empty (v : Version) (bucketSize : ℕ) : deserialize (serializeAs v bucketSize []) = .ok [] := by
  obtain ⟨hmarkerAt, -, hlenAt⟩ := @header_serializeAs [] v bucketSize (by simp)
  have hlen := length_serializeAs v bucketSize []
  unfold deserialize
  rw [if_neg (by omega), hmarkerAt]
  cases v with
  | v1 => exact if_pos hlenAt
  | v2 => exact if_pos hlenAt

theorem buckets_nil (bucketSize : ℕ) : buckets bucketSize [] = [] := by
  refine eq_nil_of_length_eq_zero ?_
  rw [length_buckets, divCeil, length_nil]
  rcases Nat.eq_zero_or_pos bucketSize with rfl | hb
  · rfl
  · exact Nat.div_eq_of_lt (by omega)

/-- A dictionary whose bucket size fits its header field reads back exactly
when every cut falls between characters. -/
theorem deserialize_written {bucketSize : ℕ} (hb : 0 < bucketSize) (hb32 : bucketSize < 2 ^ 32)
    (hpow : v = .v2 → isPowerOfTwo bucketSize = true) (hcount : values.length < 2 ^ 32)
    (hsize : (serializeAs v bucketSize values).length < 2 ^ 32) (hlens : ∀ s ∈ values, s.bytes.length < 2 ^ 32) :
    ∃ e, deserialize (serializeAs v bucketSize values) =
      if ∀ bucket ∈ buckets bucketSize values, Aligned v bucket then .ok values else .error e := by
  obtain ⟨hmarkerAt, hsizeAt, hlenAt⟩ := header_serializeAs v bucketSize hcount
  rw [Nat.mod_eq_of_lt hb32] at hsizeAt
  have hlen := length_serializeAs v bucketSize values
  by_cases hempty : values.length = 0
  · obtain rfl := eq_nil_of_length_eq_zero hempty
    exact ⟨.tooShort, by rw [deserialize_empty, buckets_nil, if_pos (by simp)]⟩
  · obtain ⟨-, -, -, hdata, -⟩ := serializeAs_parts v bucketSize values
    obtain ⟨e, he⟩ := @readBuckets_written (serializeAs v bucketSize values) v
      ⟨bucketSize, values.length, offsetsFrom 0 (bucketData v bucketSize values), 12 + (bucketData v bucketSize values).flatten.length⟩
      _ [] 0 rfl (fun k hk => by rw [length_getElem_buckets hk, length_nil, Nat.zero_add]; rfl)
      (fun b => ne_nil_of_mem_buckets hb) (fun b hb' s hs => hlens s (mem_of_mem_buckets hb hb' hs)) hdata rfl
    rw [flatten_buckets hb] at he
    refine ⟨e, ?_⟩
    have hlayout := readLayout_written (v := v) hb hb32 hcount hsize
    unfold deserialize
    rw [if_neg (by omega), hmarkerAt, ← he]
    cases v with
    | v1 =>
      unfold deserializeV1
      rw [if_neg (by omega), if_neg (by omega), hlayout]
      rfl
    | v2 =>
      unfold deserializeV2
      rw [if_neg (by omega), if_neg (by omega), hsizeAt, hpow rfl, hlayout]
      rfl

/-! ## Bucket sizes that do not fit -/

/-- One bucket takes them all. -/
theorem buckets_of_length_le {bucketSize : ℕ} (hne : values ≠ []) (h : values.length ≤ bucketSize) :
    buckets bucketSize values = [values] := by
  have hpos := length_pos_of_ne_nil hne
  have hone : divCeil values.length bucketSize = 1 := by
    rw [divCeil, Nat.div_eq_of_lt_le]
    · omega
    · omega
  rw [buckets, hone]
  simp [take_of_length_le h]

theorem validateBucketOffsets_ok {offsets : List ℕ} {n : ℕ} (h : validateBucketOffsets offsets n = .ok ()) :
    ∀ p ∈ offsets.zip offsets.tail, p.1 < p.2 := by
  unfold validateBucketOffsets at h
  split at h
  · nofun
  · split_ifs at h
    · split at h
      · cases h
      · cases h
    · split at h
      · cases h
      · rename_i hnone
        intro p hp
        simpa using find?_eq_none.1 hnone p hp

/-- The layout of a buffer that has one. -/
theorem readLayout_ok (h : readLayout data = .ok l) :
    l.bucketSize = leAt data 4 4 ∧ l.numValues = leAt data 4 8 ∧
      l.offsetsStart = data.length - divCeil l.numValues l.bucketSize * 4 ∧
      12 + divCeil l.numValues l.bucketSize * 4 ≤ data.length ∧
      l.offsets = (List.range (divCeil l.numValues l.bucketSize)).map (fun i => leAt data 4 (l.offsetsStart + i * 4)) ∧
      validateBucketOffsets l.offsets (l.offsetsStart - 12) = .ok () := by
  unfold readLayout at h
  simp only [bind, Except.bind, pure, Except.pure] at h
  split_ifs at h with hmany htrunc
  split at h
  · cases h
  · rename_i hvalid
    cases h
    exact ⟨rfl, rfl, rfl, by simpa using htrunc, rfl, hvalid⟩

/-- An increasing table of two or more entries does not end with zero. -/
theorem getLast_pos_of_increasing {o : ℕ} {offsets : List ℕ} (hne : offsets ≠ [])
    (h : ∀ p ∈ (o :: offsets).zip offsets, p.1 < p.2) : 0 < offsets.getLast hne := by
  induction offsets generalizing o with
  | nil => exact absurd rfl hne
  | cons o' offsets ih =>
    obtain ⟨hfirst, hrest⟩ := forall_mem_cons.1 (zip_cons_cons ▸ h)
    cases offsets with
    | nil => exact Nat.zero_lt_of_lt hfirst
    | cons o'' offsets =>
      exact ih (cons_ne_nil _ _) hrest

/-- The reader splits into more buckets than were written, and their table ends
with the offset of the only one. -/
theorem readLayout_overflow {bucketSize : ℕ} (hb32 : 2 ^ 32 ≤ bucketSize) (hpos : 0 < bucketSize % 2 ^ 32)
    (hlt : bucketSize % 2 ^ 32 < values.length) (hcount : values.length < 2 ^ 32) :
    readLayout (serializeAs v bucketSize values) = .ok l → False := by
  intro h
  have hne : values ≠ [] := ne_nil_of_length_pos (by omega)
  obtain ⟨-, hsizeAt, hlenAt⟩ := header_serializeAs v bucketSize hcount
  obtain ⟨-, -, -, -, htable⟩ := serializeAs_parts v bucketSize values
  have hlen := length_serializeAs v bucketSize values
  have hdata : bucketData v bucketSize values = [writeBucket v values] := by
    rw [bucketData, buckets_of_length_le hne (by omega)]
    rfl
  have hone : divCeil values.length bucketSize = 1 := by
    rw [← length_buckets, buckets_of_length_le hne (by omega)]
    rfl
  rw [hdata] at htable hlen
  have hlast := leAt_of_at (at_table htable (i := 0) (by simp [offsetsFrom]))
  simp only [offsetsFrom, getElem_cons_zero, Nat.zero_mod, Nat.zero_mul, Nat.add_zero] at hlast
  have htwo : 2 ≤ divCeil values.length (bucketSize % 2 ^ 32) := (lt_divCeil hpos).2 (by omega)
  obtain ⟨hl₁, hl₂, hl₃, hl₄, hl₅, hvalid⟩ := readLayout_ok h
  rw [hsizeAt] at hl₁
  rw [hlenAt] at hl₂
  rw [hl₁, hl₂] at hl₃ hl₄ hl₅
  generalize hnum : divCeil values.length (bucketSize % 2 ^ 32) = num at *
  obtain ⟨k, rfl⟩ : ∃ k, num = k + 2 := ⟨num - 2, by omega⟩
  have hincreasing := validateBucketOffsets_ok hvalid
  have hend : l.offsetsStart + (k + 1) * 4 = 12 + [writeBucket v values].flatten.length := by omega
  have htail : l.offsets = leAt (serializeAs v bucketSize values) 4 l.offsetsStart ::
      ((List.range (k + 1)).map fun i => leAt (serializeAs v bucketSize values) 4 (l.offsetsStart + (i + 1) * 4)) := by
    rw [hl₅, range_succ_eq_map]
    simp [Function.comp_def]
  rw [htail, tail_cons] at hincreasing
  have hpos' := getLast_pos_of_increasing (by simp) hincreasing
  simp only [range_succ, map_append, map_cons, map_nil, getLast_append_singleton, hend, hlast] at hpos'
  exact Nat.lt_irrefl _ hpos'

/-! ## The round trip -/

/-- The bucket size survives the header, or there is one bucket either way. -/
def SizeFits (bucketSize numValues : ℕ) : Prop := bucketSize < 2 ^ 32 ∨ numValues ≤ bucketSize % 2 ^ 32

instance (bucketSize numValues : ℕ) : Decidable (SizeFits bucketSize numValues) := inferInstanceAs (Decidable (_ ∨ _))

theorem serialize_eq {bucketSize : ℕ} (hb : 1 ≤ bucketSize) (hpow : v = .v2 → isPowerOfTwo bucketSize = true) :
    v.serialize bucketSize values = .ok (serializeAs v bucketSize values) := by
  cases v with
  | v1 => exact if_neg (by omega)
  | v2 =>
    show serializeV2 bucketSize values = _
    unfold serializeV2
    rw [if_neg (by omega), hpow rfl]
    rfl

theorem mod_of_isPowerOfTwo {n : ℕ} (h : isPowerOfTwo n = true) (hn : 2 ^ 32 ≤ n) : n % 2 ^ 32 = 0 := by
  simp only [isPowerOfTwo, Bool.and_eq_true, decide_eq_true_eq] at h
  rw [← h.2]
  refine Nat.mod_eq_zero_of_dvd (Nat.pow_dvd_pow 2 ?_)
  by_contra hlt
  have := Nat.pow_lt_pow_right (a := 2) (by omega) (show n.log2 < 32 by omega)
  omega

/-- A bucket size too large for its header field, with all values in one bucket. -/
theorem serializeAs_mod {bucketSize : ℕ} (hne : values ≠ [])
    (hfits : values.length ≤ bucketSize % 2 ^ 32) :
    serializeAs v bucketSize values = serializeAs v (bucketSize % 2 ^ 32) values ∧
      buckets bucketSize values = buckets (bucketSize % 2 ^ 32) values := by
  have hbuckets : buckets bucketSize values = buckets (bucketSize % 2 ^ 32) values := by
    rw [buckets_of_length_le hne hfits, buckets_of_length_le hne (hfits.trans (Nat.mod_le _ _))]
  have hheader : u32le bucketSize = u32le (bucketSize % 2 ^ 32) := (leBytes_mod 4 bucketSize).symm
  refine ⟨?_, hbuckets⟩
  unfold serializeAs
  rw [hbuckets, hheader]

/-- Either writer's dictionary reads back as the same values if and only if the
bucket size fits and, in each bucket, the bytes an entry shares with its
reference end where a character of the reference does. -/
theorem round_trip_iff (v : Version) (bucketSize : ℕ) (values : List Utf8) (hb : 1 ≤ bucketSize)
    (hpow : v = .v2 → isPowerOfTwo bucketSize = true) (hcount : values.length < 2 ^ 32)
    (hsize : ∀ data, v.serialize bucketSize values = .ok data → data.length < 2 ^ 32)
    (hlens : ∀ s ∈ values, s.bytes.length < 2 ^ 32) :
    (v.serialize bucketSize values >>= deserialize) = .ok values ↔
      SizeFits bucketSize values.length ∧ ∀ bucket ∈ buckets bucketSize values, Aligned v bucket := by
  have hwrite := @serialize_eq v values bucketSize hb hpow
  have hsize := hsize _ hwrite
  rw [hwrite, ok_bind]
  rcases eq_nil_or_concat' values with rfl | ⟨_, _, hvalues⟩
  · rw [deserialize_empty, buckets_nil]
    simp [SizeFits]
  have hne : values ≠ [] := by
    rw [hvalues]
    simp
  have hpos := length_pos_of_ne_nil hne
  -- a size within the header field
  have hwithin : ∀ b, 0 < b → b < 2 ^ 32 → (v = .v2 → isPowerOfTwo b = true) → (serializeAs v b values).length < 2 ^ 32 →
      (deserialize (serializeAs v b values) = .ok values ↔ ∀ bucket ∈ buckets b values, Aligned v bucket) := by
    intro b hb hb32 hpow hsize
    obtain ⟨e, he⟩ := deserialize_written hb hb32 hpow hcount hsize hlens
    rw [he]
    split_ifs with hall
    · exact iff_of_true rfl hall
    · exact iff_of_false nofun hall
  by_cases hb32 : bucketSize < 2 ^ 32
  · rw [hwithin bucketSize hb hb32 hpow hsize]
    exact (and_iff_right (.inl hb32)).symm
  have hmod32 : v = .v2 → bucketSize % 2 ^ 32 = 0 := fun hv => mod_of_isPowerOfTwo (hpow hv) (by omega)
  by_cases hfits : values.length ≤ bucketSize % 2 ^ 32
  · obtain ⟨hserialize, hbuckets⟩ := serializeAs_mod (v := v) hne hfits
    rw [hserialize, hbuckets, hwithin _ (by omega) (Nat.mod_lt _ (by omega)) (fun hv => ?_) (hserialize ▸ hsize)]
    · exact (and_iff_right (.inr hfits)).symm
    · have := hmod32 hv
      omega
  · refine iff_of_false (fun hok => ?_) fun h => h.1.elim hb32 hfits
    obtain ⟨hmarkerAt, hsizeAt, hlenAt⟩ := header_serializeAs v bucketSize hcount
    have hlen := length_serializeAs v bucketSize values
    unfold deserialize at hok
    rw [if_neg (by omega), hmarkerAt] at hok
    cases v with
    | v1 =>
      change deserializeV1 _ = _ at hok
      unfold deserializeV1 at hok
      rw [if_neg (by omega), hsizeAt] at hok
      split_ifs at hok with hzero
      obtain ⟨l, hl, -⟩ := bind_eq_ok.1 hok
      exact readLayout_overflow (by omega) (by omega) (by omega) hcount hl
    | v2 =>
      unfold deserializeV2 at hok
      rw [if_neg (by omega), hsizeAt, if_pos (hmod32 rfl)] at hok
      cases hok

/-- The empty string, `a`, `ab`, `é` and `日`. -/
def words : List Utf8 :=
  [⟨[], rfl⟩, ⟨[0x61], rfl⟩, ⟨[0x61, 0x62], rfl⟩, ⟨[0xC3, 0xA9], rfl⟩, ⟨[0xE6, 0x97, 0xA5], rfl⟩]

theorem round_trip_words :
    (Version.v1.serialize 4 words >>= deserialize) = .ok words ∧ (Version.v2.serialize 2 words >>= deserialize) = .ok words := by
  have hshort : ∀ s ∈ words, s.bytes.length < 2 ^ 32 := by decide
  constructor
  · refine (round_trip_iff .v1 4 words (by decide) nofun (by decide) (fun data h => ?_) hshort).2 (by decide)
    cases h
    decide +kernel
  · refine (round_trip_iff .v2 2 words (by decide) (fun _ => rfl) (by decide) (fun data h => ?_) hshort).2 (by decide)
    cases h
    decide +kernel

/-- `é` and `ê`, which share their first byte. -/
def accents : List Utf8 := [⟨[0xC3, 0xA9], rfl⟩, ⟨[0xC3, 0xAA], rfl⟩]

/-- Neither writer's dictionary is readable. -/
theorem round_trip_accents :
    accents.Pairwise (fun s t => s.bytes < t.bytes) ∧
      (Version.v1.serialize 4 accents >>= deserialize) ≠ .ok accents ∧
      (Version.v2.serialize 4 accents >>= deserialize) ≠ .ok accents := by
  refine ⟨by decide, ?_, ?_⟩
  · decide +kernel
  · decide +kernel

end FerroDruid.Dict
