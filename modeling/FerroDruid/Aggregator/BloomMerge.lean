import FerroDruid.Aggregator.Bloom
import FerroDruid.Lib.Gather
/-!
# What a Bloom filter holds

A filter whose bits are as many as its size says tests a string true exactly if all its
bits are set. Adding and merging only set bits, so what was added stays.
-/

namespace FerroDruid.Aggregator

open Lib List

namespace BloomFilter

/-- Whole bytes, as many as the size says, and a bounded number of hashes. -/
structure Valid (f : BloomFilter) : Prop where
  m_pos : 0 < f.m
  m_lt : f.m < 2 ^ 64
  m_bytes : f.m % 8 = 0
  bits_length : f.bits.length = f.m / 8
  k_ge : MIN_K ≤ f.k
  k_le : f.k ≤ MAX_K

def SameSize (f g : BloomFilter) : Prop := f.m = g.m ∧ f.k = g.k

def HasBit (bits : Bytes) (bit : ℕ) : Prop := ∃ byte, bits[bit / 8]? = some byte ∧ byte &&& mask bit ≠ 0

/-- The bits of one are among those of the other. -/
def Below (bits bits' : Bytes) : Prop := ∀ bit, HasBit bits bit → HasBit bits' bit

variable {crates : BloomCrates} {f g : BloomFilter} {bits bits' : Bytes} {bit m : ℕ} {value : Utf8}

/-! ## Bits -/

theorem mask_ne_zero (bit : ℕ) : mask bit ≠ 0 := by
  have hall : ∀ i < 8, (1 : UInt8) <<< UInt8.ofNat i ≠ 0 := by decide
  exact hall (bit % 8) (Nat.mod_lt _ (by decide))

theorem or_and_ne_zero {x y z : UInt8} : (x ||| y) &&& z ≠ 0 ↔ x &&& z ≠ 0 ∨ y &&& z ≠ 0 := by
  have hdistrib : (x ||| y) &&& z = (x &&& z) ||| (y &&& z) := by
    apply UInt8.toBitVec_inj.1
    exact BitVec.and_or_distrib_right
  rw [hdistrib, Ne, UInt8.or_eq_zero_iff, not_and_or]

theorem setBit_ok (h : bit / 8 < bits.length) :
    ∃ bits', setBit bits bit = some bits' ∧ bits'.length = bits.length ∧ HasBit bits' bit ∧ Below bits bits' := by
  have hset : setBit bits bit = some (bits.set (bit / 8) (bits[bit / 8] ||| mask bit)) := by
    rw [setBit, getElem?_eq_getElem h]
    rfl
  refine ⟨_, hset, length_set, ?_, ?_⟩
  · refine ⟨bits[bit / 8] ||| mask bit, getElem?_set_self h, ?_⟩
    rw [or_and_ne_zero, UInt8.and_self]
    exact Or.inr (mask_ne_zero bit)
  · rintro b ⟨byte, hbyte, hone⟩
    by_cases hsame : bit / 8 = b / 8
    · have hbits : bits[bit / 8] = byte := by
        rw [← hsame, getElem?_eq_getElem h] at hbyte
        exact Option.some.inj hbyte
      refine ⟨byte ||| mask bit, ?_, ?_⟩
      · rw [← hsame, getElem?_set_self h, hbits]
      · exact or_and_ne_zero.2 (Or.inl hone)
    · exact ⟨byte, by rw [getElem?_set_ne hsame, hbyte], hone⟩

/-- A union has the bits of both. -/
theorem hasBit_zipWith (hlen : bits.length = bits'.length) : HasBit (List.zipWith (· ||| ·) bits bits') bit ↔ HasBit bits bit ∨ HasBit bits' bit := by
  rcases Nat.lt_or_ge (bit / 8) bits.length with hlt | hge
  · have hlt' : bit / 8 < bits'.length := hlen ▸ hlt
    simp only [HasBit, getElem?_zipWith, getElem?_eq_getElem hlt, getElem?_eq_getElem hlt', Option.some.injEq, exists_eq_left']
    exact or_and_ne_zero
  · have hge' : bits'.length ≤ bit / 8 := hlen ▸ hge
    simp [HasBit, getElem?_zipWith, getElem?_eq_none hge, getElem?_eq_none hge']

theorem position_eq (hm : 0 < m) (hashes : UInt64 × UInt64) (i : ℕ) : ∃ bit, position m hashes i = some bit ∧ bit < m :=
  ⟨_, if_neg hm.ne', Nat.mod_lt _ hm⟩

theorem Valid.position_lt (hf : f.Valid) (hashes : UInt64 × UInt64) (i : ℕ) :
    ∃ bit, position f.m hashes i = some bit ∧ bit / 8 < f.bits.length := by
  obtain ⟨bit, hbit, hlt⟩ := position_eq hf.m_pos hashes i
  have hbytes := hf.m_bytes
  exact ⟨bit, hbit, by rw [hf.bits_length]; omega⟩

/-! ## Adding -/

/-- The bits of some of the hashes are set. -/
def HasAll (bits : Bytes) (m : ℕ) (hashes : UInt64 × UInt64) (is : List ℕ) : Prop := ∀ i ∈ is, ∀ bit ∈ position m hashes i, HasBit bits bit

theorem setAll_ok (hashes : UInt64 × UInt64) (is : List ℕ) (bits : Bytes) (hpos : ∀ i, ∃ bit, position m hashes i = some bit ∧ bit / 8 < bits.length) :
    ∃ bits', (is.foldlM (fun bits i => do
        let bit ← position m hashes i
        setBit bits bit) bits) = some bits' ∧ bits'.length = bits.length ∧ HasAll bits' m hashes is ∧ Below bits bits' := by
  induction is generalizing bits with
  | nil => exact ⟨bits, rfl, rfl, by simp [HasAll], fun _ h => h⟩
  | cons i is ih =>
    obtain ⟨bit, hbit, hlt⟩ := hpos i
    obtain ⟨bits₁, hset, hlen₁, hone, hbelow₁⟩ := setBit_ok hlt
    obtain ⟨bits₂, hrest, hlen₂, hall, hbelow₂⟩ := ih bits₁ (by rwa [hlen₁])
    refine ⟨bits₂, ?_, hlen₂.trans hlen₁, ?_, fun b hb => hbelow₂ b (hbelow₁ b hb)⟩
    · rw [foldlM_cons, hbit]
      simp only [Option.bind_eq_bind, Option.bind_some, hset]
      exact hrest
    · refine forall_mem_cons.2 ⟨fun b hb => ?_, hall⟩
      obtain rfl : bit = b := Option.some.inj (hbit.symm.trans hb)
      exact hbelow₂ bit hone

/-- All bits of the string. -/
def Holds (crates : BloomCrates) (f : BloomFilter) (value : Utf8) : Prop := HasAll f.bits f.m (hashPair crates value) (List.range f.k)

theorem Holds.mono (hsize : f.SameSize g) (hbelow : Below f.bits g.bits) (h : Holds crates f value) : Holds crates g value := by
  intro i hi bit hbit
  rw [← hsize.2] at hi
  rw [← hsize.1] at hbit
  exact hbelow bit (h i hi bit hbit)

/-- An addition does not fail, sets the string's bits and clears none. -/
theorem add_ok (crates : BloomCrates) (hf : f.Valid) (value : Utf8) :
    ∃ g, f.add crates value = some g ∧ g.Valid ∧ f.SameSize g ∧ Below f.bits g.bits ∧ Holds crates g value := by
  obtain ⟨bits, hbits, hlen, hall, hbelow⟩ := setAll_ok (hashPair crates value) (List.range f.k) f.bits (hf.position_lt _)
  refine ⟨{ f with bits := bits }, ?_, ⟨hf.m_pos, hf.m_lt, hf.m_bytes, hlen.trans hf.bits_length, hf.k_ge, hf.k_le⟩, ⟨rfl, rfl⟩, hbelow, hall⟩
  rw [add, hbits]
  rfl

/-! ## Testing -/

theorem testLoop_ok (hf : f.Valid) (hashes : UInt64 × UInt64) (is : List ℕ) :
    ∃ b, testLoop f hashes is = some b ∧ (b = true ↔ HasAll f.bits f.m hashes is) := by
  induction is with
  | nil => exact ⟨true, rfl, by simp [HasAll]⟩
  | cons i is ih =>
    obtain ⟨b, hrest, hb⟩ := ih
    obtain ⟨bit, hbit, hlt⟩ := hf.position_lt hashes i
    have hall : HasAll f.bits f.m hashes (i :: is) ↔ HasBit f.bits bit ∧ HasAll f.bits f.m hashes is := by
      rw [HasAll, forall_mem_cons, hbit]
      simp [HasAll]
    rw [testLoop, hbit]
    simp only [Option.bind_eq_bind, Option.bind_some, getElem?_eq_getElem hlt]
    split_ifs with hzero
    · refine ⟨false, rfl, ?_⟩
      rw [hall]
      refine iff_of_false Bool.false_ne_true fun h => ?_
      obtain ⟨byte, hbyte, hone⟩ := h.1
      rw [getElem?_eq_getElem hlt] at hbyte
      cases hbyte
      exact hone hzero
    · refine ⟨b, hrest, ?_⟩
      rw [hall, hb]
      exact ⟨fun h => ⟨⟨_, getElem?_eq_getElem hlt, hzero⟩, h⟩, fun h => h.2⟩

/-- A test does not fail, and is true for what the filter holds. -/
theorem test_ok (crates : BloomCrates) (hf : f.Valid) (value : Utf8) : ∃ b, f.test crates value = some b ∧ (b = true ↔ Holds crates f value) := by
  have hbits : f.bits ≠ [] := by
    intro hnil
    have hlen := hf.bits_length
    have hpos := hf.m_pos
    have hbytes := hf.m_bytes
    rw [hnil, length_nil] at hlen
    omega
  rw [test, if_neg (not_or.2 ⟨hbits, hf.m_pos.ne'⟩)]
  exact testLoop_ok hf _ _

theorem test_of_holds (hf : f.Valid) (h : Holds crates f value) : f.test crates value = some true := by
  obtain ⟨b, htest, hb⟩ := test_ok crates hf value
  rw [htest, hb.2 h]

/-! ## Merging -/

theorem mergeIn_ok (hf : f.Valid) (hg : g.Valid) (hsize : f.SameSize g) :
    (f.mergeIn g).Valid ∧ f.SameSize (f.mergeIn g) ∧ Below f.bits (f.mergeIn g).bits ∧ Below g.bits (f.mergeIn g).bits := by
  have hlen : f.bits.length = g.bits.length := by rw [hf.bits_length, hg.bits_length, hsize.1]
  have hmerge : f.mergeIn g = { f with bits := List.zipWith (· ||| ·) f.bits g.bits } := by
    rw [mergeIn, if_neg]
    simp [hsize.1, hsize.2, hlen]
  rw [hmerge]
  refine ⟨⟨hf.m_pos, hf.m_lt, hf.m_bytes, ?_, hf.k_ge, hf.k_le⟩, ⟨rfl, rfl⟩, ?_, ?_⟩
  · rw [length_zipWith, ← hlen, min_self]
    exact hf.bits_length
  · exact fun bit hbit => (hasBit_zipWith hlen).2 (Or.inl hbit)
  · exact fun bit hbit => (hasBit_zipWith hlen).2 (Or.inr hbit)

theorem mergeIn_valid (hf : f.Valid) (hg : g.Valid) : (f.mergeIn g).Valid := by
  by_cases hsize : f.SameSize g
  · exact (mergeIn_ok hf hg hsize).1
  · have hsame : f.mergeIn g = f := by
      rw [mergeIn, if_pos]
      rcases not_and_or.1 hsize with h | h
      · exact Or.inl h
      · exact Or.inr (Or.inl h)
    rwa [hsame]

/-! ## Sizes -/

theorem ln2_square : LN_2.mul LN_2 = .finite false ⟨4602326691975710094, by decide⟩ := by decide +kernel

/-- The number of bits before it is rounded: far from the ends of the range. -/
theorem bitsRaw_atMost (crates : BloomCrates) {n : ℕ} (h : n ≤ MAX_ENTRIES) :
    (((F64.ofInt n).mul (crates.ln FPP)).neg.div (LN_2.mul LN_2)).AtMost (F64.unitsOne * 2 ^ 32) := by
  obtain ⟨m, hln, hm⟩ := crates.ln_hundredth
  have hn : n ≤ 2 ^ 53 := h.trans (by decide)
  have hint := F64.ofInt_natCast (show n < 2 ^ 64 by omega)
  have hunits := F64.units_ofInt hn
  have hneg : ∀ a b, F64.neg (F64.ofRatio true a b) = F64.ofRatio false a b := by
    intro a b
    unfold F64.ofRatio
    split <;> rfl
  have hproduct : ((F64.ofInt n).mul (crates.ln FPP)).neg = F64.ofRatio false (F64.unitsOne * n * F64.units m) F64.unitsOne := by
    rw [hint, show crates.ln FPP = _ from hln, F64.mul, hunits, Bool.false_xor, hneg]
  have hbound : F64.unitsOne * n * F64.units m / F64.unitsOne < 2 ^ (1102 + 1) := by
    rw [Nat.mul_assoc, Nat.mul_div_cancel_left _ F64.unitsOne_pos]
    calc n * F64.units m ≤ 2 ^ 26 * (F64.unitsOne * 5) := Nat.mul_le_mul h hm
      _ < 2 ^ (1102 + 1) := by
        decide +kernel
  obtain ⟨p, hp, hple⟩ := F64.ofRatio_atMost (by decide) (by decide) hbound
  have hquotient : F64.units p * F64.unitsOne / F64.units 4602326691975710094 < 2 ^ (1105 + 1) := by
    have hdivisor : 2 ^ 1072 ≤ F64.units 4602326691975710094 := by decide +kernel
    refine (Nat.div_le_div_left hdivisor (by positivity)).trans_lt ?_
    rw [Nat.div_lt_iff_lt_mul (by positivity)]
    calc F64.units p * F64.unitsOne ≤ 2 ^ (1102 + 1) * F64.unitsOne := Nat.mul_le_mul_right _ hple
      _ < 2 ^ (1105 + 1) * 2 ^ 1072 := by
        decide +kernel
  have hresult := F64.ofRatio_atMost (by decide) (by decide) hquotient
  rw [show 2 ^ (1105 + 1) = F64.unitsOne * 2 ^ 32 by rw [F64.unitsOne_eq, ← pow_add]] at hresult
  rw [hproduct, hp, ln2_square, F64.div, if_neg (by decide)]
  exact hresult

theorem forEntries_valid (crates : BloomCrates) (numEntries : UInt64) : (forEntries crates numEntries).Valid := by
  have hmax : max MIN_ENTRIES (min numEntries.toNat MAX_ENTRIES) ≤ MAX_ENTRIES := max_le (by decide) (Nat.min_le_right _ _)
  have hraw := F64.toUnsigned_ceil_le (w := 64) (by decide) (bitsRaw_atMost crates hmax)
  unfold forEntries
  dsimp only
  generalize F64.toUnsigned 64 _ = raw at hraw ⊢
  set mBits := if raw < 64 then 64 else raw with hbits
  have hlow : 64 ≤ mBits := by
    rw [hbits]
    split_ifs <;> omega
  have hhigh : mBits ≤ 2 ^ 32 := by
    rw [hbits]
    split_ifs <;> omega
  refine ⟨?_, ?_, ?_, length_replicate, ?_, Nat.min_le_right _ _⟩
  · dsimp only
    omega
  · dsimp only
    omega
  · dsimp only
    omega
  · exact le_min (F64.le_toUnsigned_max (by decide) (by decide) _) (by decide)

/-! ## Bytes -/

theorem fromBytes_toBytes (hf : f.Valid) : fromBytes f.toBytes = .ok f := by
  have hk := hf.k_le
  have hm := hf.m_lt
  have hat : At f.toBytes 0 f.toBytes := prefix_rfl
  unfold toBytes at hat
  simp only [append_assoc] at hat
  obtain ⟨hmagic, hat⟩ := At.append_iff.1 hat
  obtain ⟨hversion, hat⟩ := At.append_iff.1 hat
  obtain ⟨hkAt, hat⟩ := At.append_iff.1 hat
  obtain ⟨hmAt, -⟩ := At.append_iff.1 hat
  have hk' : f.k < 256 ^ 4 := hk.trans_lt (by decide)
  have hversion : leAt f.toBytes 4 4 = VERSION := leAt_of_at hversion
  have hkAt : leAt f.toBytes 4 8 = f.k := (leAt_of_at hkAt).trans (Nat.mod_eq_of_lt hk')
  have hmAt : leAt f.toBytes 8 12 = f.m := (leAt_of_at hmAt).trans (Nat.mod_eq_of_lt hm)
  have hlen : f.toBytes.length = 20 + f.m / 8 := by
    simp only [toBytes, length_append, length_leBytes, hf.bits_length]
    rfl
  have hdrop : f.toBytes.drop 20 = f.bits := drop_left' (by simp only [length_append, length_leBytes]; rfl)
  have hm8 : ¬(f.m = 0 ∨ f.m % 8 ≠ 0) := not_or.2 ⟨hf.m_pos.ne', not_not.2 hf.m_bytes⟩
  have hkRange : ¬(f.k < MIN_K ∨ MAX_K < f.k) := not_or.2 ⟨Nat.not_lt.2 hf.k_ge, Nat.not_lt.2 hk⟩
  have hmagic : f.toBytes.take 4 = MAGIC := hmagic.take_eq
  rw [fromBytes, if_neg (by omega), if_neg (not_not.2 hmagic)]
  rw [hversion, if_neg (not_not.2 rfl), hkAt, if_neg hkRange, hmAt, if_neg hm8, if_neg (not_not.2 hlen), hdrop]

theorem fromBytes_valid {bytes : Bytes} (h : fromBytes bytes = .ok f) : f.Valid := by
  unfold fromBytes at h
  dsimp only at h
  split_ifs at h with hshort hmagic hversion hk hm hlen
  cases h
  rw [not_or] at hk hm
  refine ⟨Nat.pos_of_ne_zero hm.1, leAt_lt bytes 8 12, not_not.1 hm.2, ?_, Nat.not_lt.1 hk.1, Nat.not_lt.1 hk.2⟩
  rw [length_drop]
  dsimp only
  omega

end BloomFilter

/-! ## Bloom filters across shards

Aggregators of shards are merged in process, and their results as JSON, in any order and
grouping. Filters of one size give a filter that holds every value; one of another size
is passed over, and so is what comes to an envelope that does not decode. -/

open BloomFilter

variable (crates : BloomCrates)

/-! ## Shards -/

/-- The values of a shard, and the number of entries its aggregator was built for. -/
structure BloomShard where
  numEntries : UInt64
  values : List (Option Json)

namespace BloomShard

def aggregator (shard : BloomShard) : Option BloomFilterAggregator :=
  shard.values.foldlM (fun agg value => agg.aggregate crates value) (.new crates shard.numEntries)

/-- The bits and the hashes of its filter. -/
def size (shard : BloomShard) : ℕ × ℕ := ((forEntries crates shard.numEntries).m, (forEntries crates shard.numEntries).k)

end BloomShard

/-- The filter of an envelope, if it decodes. -/
def envelopeFilter (j : Json) : Option BloomFilter := (extractBloomB64 j).bind fun b64 => (decodeBloomFilter crates b64).toOption

/-- Aggregators that are merged in process. -/
def gatherInProcess (t : MergeTree BloomShard) : Option BloomFilterAggregator :=
  t.eval (·.aggregator crates) fun left right => do
    let self ← left
    let other ← right
    return self.merge crates (other.get crates)

/-- The results of aggregators, and whatever else came as one. -/
abbrev BloomPartial := MergeTree BloomShard ⊕ Json

namespace BloomPartial

def toJson : BloomPartial → Option Json
  | .inl t => (gatherInProcess crates t).map (·.get crates)
  | .inr j => some j

def shards : BloomPartial → List BloomShard
  | .inl t => t.parts
  | .inr _ => []

def sizes : BloomPartial → List (ℕ × ℕ)
  | .inl t => t.parts.map (·.size crates)
  | .inr j => (envelopeFilter crates j).toList.map fun f => (f.m, f.k)

end BloomPartial

def gatherBloom (t : MergeTree BloomPartial) : Option Json :=
  t.eval (BloomPartial.toJson crates) fun left right => do
    let dst ← left
    let src ← right
    return mergeBloomJson crates dst src

/-- All filters that take part have one size. -/
def OneSize (t : MergeTree BloomPartial) : Prop :=
  ∀ a ∈ t.parts.flatMap (BloomPartial.sizes crates), ∀ b ∈ t.parts.flatMap (BloomPartial.sizes crates), a = b

/-- No filter is merged into an envelope that does not decode. -/
def NoSpoiledTarget (t : MergeTree BloomPartial) : Prop :=
  ∀ left right, .node left right ∈ t.subtrees → ∀ dst ∈ gatherBloom crates left, ∀ src ∈ gatherBloom crates right,
    (extractBloomB64 dst).isSome = true → envelopeFilter crates dst = none → envelopeFilter crates src = none

/-- Every value of the shards but the nulls. -/
def HoldsAll (f : BloomFilter) (shards : List BloomShard) : Prop :=
  ∀ shard ∈ shards, ∀ v, some v ∈ shard.values → v ≠ .null → Holds crates f (bloomInputStr crates v)

variable {crates} {f g : BloomFilter} {m k : ℕ}

/-! ## Envelopes -/

theorem extractBloomB64_envelope (f : BloomFilter) : extractBloomB64 (bloomEnvelope crates f) = some (encodeBloomFilter crates f) := by
  have hne : sketchName ≠ bytesName := by decide +kernel
  simp [extractBloomB64, bloomEnvelope, Json.get, Json.asStr, hne]

theorem decodeBloomFilter_encode (hf : f.Valid) : decodeBloomFilter crates (encodeBloomFilter crates f) = .ok f := by
  rw [decodeBloomFilter, encodeBloomFilter, crates.decode_encode]
  exact fromBytes_toBytes hf

theorem envelopeFilter_envelope (hf : f.Valid) : envelopeFilter crates (bloomEnvelope crates f) = some f := by
  rw [envelopeFilter, extractBloomB64_envelope, Option.bind_some, decodeBloomFilter_encode hf]
  rfl

theorem envelopeFilter_valid {j : Json} (h : envelopeFilter crates j = some f) : f.Valid := by
  obtain ⟨b64, -, hdecode⟩ := Option.bind_eq_some_iff.1 h
  unfold decodeBloomFilter at hdecode
  split at hdecode
  · cases hdecode
  · rename_i bytes _
    cases hread : fromBytes bytes with
    | error e =>
      rw [hread] at hdecode
      cases hdecode
    | ok g =>
      rw [hread] at hdecode
      cases hdecode
      exact fromBytes_valid hread

/-- What a merge of two results gives, by what they decode to. -/
theorem envelopeFilter_merge (dst src : Json)
    (hspoiled : (extractBloomB64 dst).isSome = true → envelopeFilter crates dst = none → envelopeFilter crates src = none) :
    envelopeFilter crates (mergeBloomJson crates dst src) =
      match envelopeFilter crates dst, envelopeFilter crates src with
      | some df, some sf => some (df.mergeIn sf)
      | some df, none => some df
      | none, sf => sf := by
  cases hd : extractBloomB64 dst with
  | none =>
    have hdst : envelopeFilter crates dst = none := by rw [envelopeFilter, hd]; rfl
    cases hs : extractBloomB64 src with
    | none =>
      have hsrc : envelopeFilter crates src = none := by rw [envelopeFilter, hs]; rfl
      simp only [mergeBloomJson, hd, hs, hdst, hsrc]
    | some s => simp only [mergeBloomJson, hd, hs, hdst]
  | some d =>
    cases hs : extractBloomB64 src with
    | none =>
      have hsrc : envelopeFilter crates src = none := by rw [envelopeFilter, hs]; rfl
      cases hdst : envelopeFilter crates dst <;> simp only [mergeBloomJson, hd, hs, hdst, hsrc]
    | some s =>
      cases hdf : decodeBloomFilter crates d with
      | error e =>
        have hdst : envelopeFilter crates dst = none := by rw [envelopeFilter, hd, Option.bind_some, hdf]; rfl
        have hsrc := hspoiled (hd ▸ rfl) hdst
        simp only [mergeBloomJson, hd, hs, hdf, hdst, hsrc]
      | ok df =>
        have hdst : envelopeFilter crates dst = some df := by rw [envelopeFilter, hd, Option.bind_some, hdf]; rfl
        cases hsf : decodeBloomFilter crates s with
        | error e =>
          have hsrc : envelopeFilter crates src = none := by rw [envelopeFilter, hs, Option.bind_some, hsf]; rfl
          simp only [mergeBloomJson, hd, hs, hdf, hsf, hdst, hsrc]
        | ok sf =>
          have hsrc : envelopeFilter crates src = some sf := by rw [envelopeFilter, hs, Option.bind_some, hsf]; rfl
          have hvalid := mergeIn_valid (envelopeFilter_valid hdst) (envelopeFilter_valid hsrc)
          simp only [mergeBloomJson, hd, hs, hdf, hsf, hdst, hsrc, envelopeFilter_envelope hvalid]

/-! ## Aggregators -/

/-- A filter of the size, with the values of the shards. -/
structure BloomCarries (crates : BloomCrates) (size : ℕ × ℕ) (shards : List BloomShard) (f : BloomFilter) : Prop where
  valid : f.Valid
  size : (f.m, f.k) = size
  holds : HoldsAll crates f shards

theorem HoldsAll.mono {shards : List BloomShard} (hsize : f.SameSize g) (hbelow : Below f.bits g.bits) (h : HoldsAll crates f shards) :
    HoldsAll crates g shards := fun shard hshard v hv hne => (h shard hshard v hv hne).mono hsize hbelow

variable {size : ℕ × ℕ}

/-- A union carries the shards of both. -/
theorem BloomCarries.mergeIn {left right : List BloomShard} (hf : BloomCarries crates size left f) (hg : BloomCarries crates size right g) :
    BloomCarries crates size (left ++ right) (f.mergeIn g) := by
  have hboth := hf.size.trans hg.size.symm
  have hsame : f.SameSize g := ⟨congrArg Prod.fst hboth, congrArg Prod.snd hboth⟩
  have hback : g.SameSize f := ⟨hsame.1.symm, hsame.2.symm⟩
  obtain ⟨hvalid, hsize, hleft, hright⟩ := mergeIn_ok hf.valid hg.valid hsame
  refine ⟨hvalid, ?_, ?_⟩
  · rw [← hsize.1, ← hsize.2]
    exact hf.size
  · intro shard hshard
    rcases mem_append.1 hshard with h | h
    · exact (hf.holds.mono hsize hleft) shard h
    · exact (hg.holds.mono ⟨hback.1.trans hsize.1, hback.2.trans hsize.2⟩ hright) shard h

theorem aggregate_ok (crates : BloomCrates) {agg : BloomFilterAggregator} (hvalid : agg.filter.Valid) (value : Option Json) :
    ∃ agg', agg.aggregate crates value = some agg' ∧ agg'.filter.Valid ∧ agg.filter.SameSize agg'.filter ∧ Below agg.filter.bits agg'.filter.bits ∧
      ∀ v, value = some v → v ≠ .null → Holds crates agg'.filter (bloomInputStr crates v) := by
  rcases value with _ | v
  · exact ⟨agg, rfl, hvalid, ⟨rfl, rfl⟩, fun _ h => h, nofun⟩
  · by_cases hnull : v = .null
    · subst hnull
      exact ⟨agg, rfl, hvalid, ⟨rfl, rfl⟩, fun _ h => h, fun v hv hne => absurd (Option.some.inj hv).symm hne⟩
    · obtain ⟨filter, hadd, hfilter, hsize, hbelow, hholds⟩ := add_ok crates hvalid (bloomInputStr crates v)
      refine ⟨⟨filter⟩, ?_, hfilter, hsize, hbelow, fun v' hv' _ => by cases hv'; exact hholds⟩
      rw [BloomFilterAggregator.aggregate]
      · rw [hadd]
        rfl
      · exact fun h => hnull h

theorem feed_ok (crates : BloomCrates) (values : List (Option Json)) {agg : BloomFilterAggregator} (hvalid : agg.filter.Valid) :
    ∃ agg', values.foldlM (fun agg value => agg.aggregate crates value) agg = some agg' ∧ agg'.filter.Valid ∧ agg.filter.SameSize agg'.filter ∧
      Below agg.filter.bits agg'.filter.bits ∧ ∀ v, some v ∈ values → v ≠ .null → Holds crates agg'.filter (bloomInputStr crates v) := by
  induction values generalizing agg with
  | nil => exact ⟨agg, rfl, hvalid, ⟨rfl, rfl⟩, fun _ h => h, by simp⟩
  | cons value values ih =>
    obtain ⟨agg₁, hstep, hvalid₁, hsize₁, hbelow₁, hone⟩ := aggregate_ok crates hvalid value
    obtain ⟨agg₂, hrest, hvalid₂, hsize₂, hbelow₂, hall⟩ := ih hvalid₁
    refine ⟨agg₂, ?_, hvalid₂, ⟨hsize₁.1.trans hsize₂.1, hsize₁.2.trans hsize₂.2⟩, fun b hb => hbelow₂ b (hbelow₁ b hb), ?_⟩
    · rw [foldlM_cons, hstep]
      exact hrest
    · intro v hv hne
      rcases mem_cons.1 hv with h | h
      · exact (hone v h.symm hne).mono hsize₂ hbelow₂
      · exact hall v h hne

theorem BloomShard.aggregator_ok (crates : BloomCrates) (shard : BloomShard) :
    ∃ agg, shard.aggregator crates = some agg ∧ BloomCarries crates (shard.size crates) [shard] agg.filter := by
  obtain ⟨agg, hfeed, hvalid, hsize, -, hholds⟩ := feed_ok crates shard.values (forEntries_valid crates shard.numEntries)
  refine ⟨agg, hfeed, hvalid, ?_, ?_⟩
  · rw [← hsize.1, ← hsize.2]
    rfl
  · intro s hs v hv hne
    rw [mem_singleton.1 hs] at hv
    exact hholds v hv hne

/-- The merge in process reads the other filter back as it was. -/
theorem merge_get (agg other : BloomFilterAggregator) (hother : other.filter.Valid) :
    (agg.merge crates (other.get crates)).filter = agg.filter.mergeIn other.filter := by
  simp only [BloomFilterAggregator.merge, BloomFilterAggregator.get, extractBloomB64_envelope, decodeBloomFilter_encode hother]

theorem gatherInProcess_ok (t : MergeTree BloomShard) (hsize : ∀ s ∈ t.parts, s.size crates = size) :
    ∃ agg, gatherInProcess crates t = some agg ∧ BloomCarries crates size t.parts agg.filter := by
  refine MergeTree.eval_induct (R := fun result shards =>
    ∃ agg : BloomFilterAggregator, result = some agg ∧ BloomCarries crates size shards agg.filter) t ?_ ?_
  · intro shard hshard
    obtain ⟨agg, hagg, hcarries⟩ := shard.aggregator_ok crates
    exact ⟨agg, hagg, hsize shard hshard ▸ hcarries⟩
  · rintro _ _ left right ⟨self, rfl, hself⟩ ⟨other, rfl, hother⟩
    refine ⟨self.merge crates (other.get crates), rfl, ?_⟩
    rw [merge_get self other hother.valid]
    exact hself.mergeIn hother

/-! ## Results -/

def bloomShards (t : MergeTree BloomPartial) : List BloomShard := t.parts.flatMap BloomPartial.shards

/-- A result that decodes carries the shards, and one that does not has none. -/
def Gathered (crates : BloomCrates) (size : ℕ × ℕ) (shards : List BloomShard) (j : Json) : Prop :=
  match envelopeFilter crates j with
  | some f => BloomCarries crates size shards f
  | none => shards = []

theorem Gathered.merge {left right : List BloomShard} {dst src : Json} (hdst : Gathered crates size left dst)
    (hsrc : Gathered crates size right src)
    (hspoiled : (extractBloomB64 dst).isSome = true → envelopeFilter crates dst = none → envelopeFilter crates src = none) :
    Gathered crates size (left ++ right) (mergeBloomJson crates dst src) := by
  unfold Gathered at hdst hsrc ⊢
  rw [envelopeFilter_merge dst src hspoiled]
  cases hd : envelopeFilter crates dst with
  | none =>
    rw [hd] at hdst
    rw [show left = [] from hdst, nil_append]
    exact hsrc
  | some df =>
    rw [hd] at hdst
    cases hs : envelopeFilter crates src with
    | none =>
      rw [hs] at hsrc
      rw [show right = [] from hsrc, append_nil]
      exact hdst
    | some sf =>
      rw [hs] at hsrc
      exact BloomCarries.mergeIn hdst hsrc

theorem BloomPartial.gathered (crates : BloomCrates) (part : BloomPartial) (hsize : ∀ a ∈ part.sizes crates, a = size) :
    ∃ j, part.toJson crates = some j ∧ Gathered crates size part.shards j := by
  rcases part with t | j
  · obtain ⟨agg, hagg, hcarries⟩ := gatherInProcess_ok t fun s hs => hsize _ (mem_map_of_mem hs)
    refine ⟨agg.get crates, ?_, ?_⟩
    · rw [toJson, hagg]
      rfl
    · rw [Gathered, BloomFilterAggregator.get, envelopeFilter_envelope hcarries.valid]
      exact hcarries
  · refine ⟨j, rfl, ?_⟩
    cases hfilter : envelopeFilter crates j with
    | none =>
      rw [Gathered, hfilter]
      rfl
    | some f =>
      rw [Gathered, hfilter]
      refine ⟨envelopeFilter_valid hfilter, hsize _ ?_, nofun⟩
      rw [sizes, hfilter]
      exact mem_singleton_self _

theorem gatherBloom_ok (t : MergeTree BloomPartial) (hsize : ∀ a ∈ t.parts.flatMap (BloomPartial.sizes crates), a = size)
    (hspoiled : NoSpoiledTarget crates t) : ∃ j, gatherBloom crates t = some j ∧ Gathered crates size (bloomShards t) j := by
  induction t with
  | leaf part =>
    obtain ⟨j, hj, hgathered⟩ := part.gathered crates fun a ha => hsize a (by simpa [MergeTree.parts] using ha)
    refine ⟨j, hj, ?_⟩
    simpa [bloomShards, MergeTree.parts] using hgathered
  | node left right ihl ihr =>
    simp only [MergeTree.parts, flatMap_append, forall_mem_append] at hsize
    obtain ⟨dst, hdst, hleft⟩ := ihl hsize.1 fun l r hmem => hspoiled l r (by simp [MergeTree.subtrees, hmem])
    obtain ⟨src, hsrc, hright⟩ := ihr hsize.2 fun l r hmem => hspoiled l r (by simp [MergeTree.subtrees, hmem])
    refine ⟨mergeBloomJson crates dst src, ?_, ?_⟩
    · unfold gatherBloom at hdst hsrc ⊢
      rw [MergeTree.eval, hdst, hsrc]
      rfl
    · rw [bloomShards, MergeTree.parts, flatMap_append]
      exact hleft.merge hright (hspoiled left right (MergeTree.mem_subtrees_self _) dst hdst src hsrc)

/-- A filter that the constructor, additions and merges give. -/
inductive BloomFilter.Reachable (crates : BloomCrates) : BloomFilter → Prop
  | forEntries (numEntries : UInt64) : Reachable crates (forEntries crates numEntries)
  | add {f g : BloomFilter} {value : Utf8} : Reachable crates f → f.add crates value = some g → Reachable crates g
  | mergeIn {f g : BloomFilter} : Reachable crates f → Reachable crates g → Reachable crates (f.mergeIn g)

theorem BloomFilter.Reachable.valid (h : Reachable crates f) : f.Valid := by
  induction h with
  | forEntries numEntries => exact forEntries_valid crates numEntries
  | @add f g value _ hadd ih =>
    obtain ⟨g', hadd', hvalid, -⟩ := add_ok crates ih value
    obtain rfl : g' = g := Option.some.inj (hadd'.symm.trans hadd)
    exact hvalid
  | mergeIn _ _ ihf ihg => exact mergeIn_valid ihf ihg

/-- Filters of one size lose no value, a filter survives its bytes, and what the bytes
give can be asked and added to. -/
theorem bloom_noFalseNegatives (crates : BloomCrates) :
    (∀ t : MergeTree BloomPartial, OneSize crates t → NoSpoiledTarget crates t → ∃ j, gatherBloom crates t = some j ∧
        ∀ f, envelopeFilter crates j = some f → ∀ shard ∈ bloomShards t, ∀ v, some v ∈ shard.values → v ≠ .null →
          f.test crates (bloomInputStr crates v) = some true) ∧
      (∀ f, Reachable crates f → fromBytes f.toBytes = .ok f) ∧
      ∀ bytes f, fromBytes bytes = .ok f → ∀ value, (∃ g, f.add crates value = some g) ∧ ∃ b, f.test crates value = some b := by
  refine ⟨?_, fun f hf => fromBytes_toBytes hf.valid, ?_⟩
  · intro t hone hspoiled
    -- the size of the filters, if there are any
    obtain ⟨size, hsize⟩ : ∃ size, ∀ a ∈ t.parts.flatMap (BloomPartial.sizes crates), a = size := by
      cases hall : t.parts.flatMap (BloomPartial.sizes crates) with
      | nil => exact ⟨(0, 0), nofun⟩
      | cons size rest => exact ⟨size, fun a ha => hone a (hall ▸ ha) size (hall ▸ mem_cons_self ..)⟩
    obtain ⟨j, hj, hgathered⟩ := gatherBloom_ok t hsize hspoiled
    refine ⟨j, hj, fun f hf shard hshard v hv hne => ?_⟩
    rw [Gathered, hf] at hgathered
    exact test_of_holds hgathered.valid (hgathered.holds shard hshard v hv hne)
  · intro bytes f hread value
    have hvalid := fromBytes_valid hread
    obtain ⟨g, hadd, -⟩ := add_ok crates hvalid value
    obtain ⟨b, htest, -⟩ := test_ok crates hvalid value
    exact ⟨⟨g, hadd⟩, b, htest⟩

/-! ## Filters of two sizes -/

/-- The logarithm of the standard library, and its base64. -/
def standardCrates : BloomCrates where
  ln _ := .ofBits 0xC0126BB1BBB55516
  hash key value := key + UInt64.ofNat value.bytes.length
  encode bs := .ofAscii (Base64.encode bs) (Base64.ascii_encode bs)
  decode s := match Base64.decode s.bytes with
    | none => .error "invalid base64"
    | some bs => .ok bs
  text _ := ⟨[], Eq.refl true⟩
  ln_hundredth := ⟨⟨0x40126BB1BBB55516, by decide⟩, by decide +kernel, by decide +kernel⟩
  decode_encode bs := by
    have h := Base64.decode_encode bs
    simp only [Utf8.ofAscii, h]

def alpha : Utf8 := ⟨ascii "alpha", by decide +kernel⟩

/-- Two shards, of which the second has a null. -/
def oneSize : MergeTree BloomPartial :=
  .node (.leaf (.inl (.leaf ⟨8, [some (.string alpha)]⟩))) (.leaf (.inl (.leaf ⟨8, [some .null, some (.ofI64 7)]⟩)))

theorem noSpoiledTarget_oneSize (crates : BloomCrates) : NoSpoiledTarget crates oneSize := by
  intro left right hmem dst hdst _ _ _ hnone
  have hleft : left = .leaf (.inl (.leaf ⟨8, [some (.string alpha)]⟩)) := by
    simp only [oneSize, MergeTree.subtrees, cons_append, nil_append, mem_cons, not_mem_nil, or_false,
      MergeTree.node.injEq, reduceCtorEq] at hmem
    exact hmem.1
  obtain ⟨agg, hagg, hcarries⟩ := BloomShard.aggregator_ok crates ⟨8, [some (.string alpha)]⟩
  simp only [hleft, gatherBloom, MergeTree.eval, BloomPartial.toJson, gatherInProcess, hagg, Option.map_some, Option.mem_some_iff] at hdst
  rw [← hdst, BloomFilterAggregator.get, envelopeFilter_envelope hcarries.valid] at hnone
  cases hnone

theorem bloom_noFalseNegatives_two : ∃ j f, gatherBloom standardCrates oneSize = some j ∧ envelopeFilter standardCrates j = some f ∧
    f.test standardCrates alpha = some true := by
  have hone : OneSize standardCrates oneSize := by
    simp [OneSize, oneSize, MergeTree.parts, BloomPartial.sizes, BloomShard.size]
  obtain ⟨j, hj, htest⟩ := (bloom_noFalseNegatives standardCrates).1 oneSize hone (noSpoiledTarget_oneSize standardCrates)
  obtain ⟨j', hj', hgathered⟩ := gatherBloom_ok oneSize (fun a ha => hone a ha _ (mem_cons_self ..)) (noSpoiledTarget_oneSize standardCrates)
  obtain rfl := Option.some.inj (hj.symm.trans hj')
  cases hfilter : envelopeFilter standardCrates j with
  | none =>
    rw [Gathered, hfilter] at hgathered
    cases hgathered
  | some f => exact ⟨j, f, hj, hfilter, htest f hfilter ⟨8, [some (.string alpha)]⟩ (mem_cons_self ..) _ (mem_singleton_self _) (by simp)⟩

/-- The first shard saw nothing, and its filter is smaller. -/
def twoSizes : MergeTree BloomPartial :=
  .node (.leaf (.inl (.leaf ⟨8, []⟩))) (.leaf (.inl (.leaf ⟨1000, [some (.string alpha)]⟩)))

theorem small_filter : forEntries standardCrates 8 = ⟨80, 7, List.replicate 10 0⟩ := by decide +kernel

theorem large_filter : (forEntries standardCrates 1000).m = 9592 := by decide +kernel

theorem BloomCarries.m_eq {shard : BloomShard} {shards : List BloomShard} (h : BloomCarries crates (shard.size crates) shards f) :
    f.m = (forEntries crates shard.numEntries).m := congrArg Prod.fst h.size

theorem aggregator_nil (crates : BloomCrates) (numEntries : UInt64) :
    BloomShard.aggregator crates ⟨numEntries, []⟩ = some ⟨forEntries crates numEntries⟩ := rfl

/-- The value of the larger filter is lost, whatever the hashes. -/
theorem twoSizes_lose :
    ∃ j f, gatherBloom standardCrates twoSizes = some j ∧ envelopeFilter standardCrates j = some f ∧ f.test standardCrates alpha = some false := by
  have hsmall := aggregator_nil standardCrates 8
  obtain ⟨large, hlarge, hcarries⟩ := BloomShard.aggregator_ok standardCrates ⟨1000, [some (.string alpha)]⟩
  have hm := hcarries.m_eq
  rw [large_filter] at hm
  have hvalid := forEntries_valid standardCrates 8
  have hkept : (forEntries standardCrates 8).mergeIn large.filter = forEntries standardCrates 8 := by
    rw [mergeIn, if_pos]
    rw [hm, small_filter]
    exact Or.inl (by decide)
  refine ⟨bloomEnvelope standardCrates (forEntries standardCrates 8), forEntries standardCrates 8, ?_, envelopeFilter_envelope hvalid, ?_⟩
  · have hmerge : mergeBloomJson standardCrates (bloomEnvelope standardCrates (forEntries standardCrates 8))
      (bloomEnvelope standardCrates large.filter) =
        bloomEnvelope standardCrates (forEntries standardCrates 8) := by
      simp only [mergeBloomJson, extractBloomB64_envelope, decodeBloomFilter_encode hvalid, decodeBloomFilter_encode hcarries.valid, hkept]
    simp only [gatherBloom, twoSizes, MergeTree.eval, BloomPartial.toJson, gatherInProcess, hsmall, hlarge]
    exact congrArg some hmerge
  · rw [small_filter]
    decide +kernel

end FerroDruid.Aggregator
