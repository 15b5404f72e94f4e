import FerroDruid.Segment.NativeLongs
import Mathlib.Data.List.ReduceOption
/-!
# Packed longs are read back

A packed run holds the bits of its values one behind the other, the most significant
first, up to a whole byte and four zero bytes. Its values are read back at every
width, from one run and from the blocks of a container.
-/

namespace FerroDruid.Segment.Native

open Lib Lib.Cursor

section

variable {packed : Bytes} {bits n len i : ℕ} {what : String} {values : List UInt64}

/-! ## One value -/

/-- The shifts and the mask cut the bits of the value out of its window of bytes. -/
theorem readPackedBe_eq (hbits : 0 < bits) (h : (i + 1) * bits ≤ 8 * packed.length) :
    readPackedBe packed i bits = .ok (UInt64.ofNat (natOfBits (((bitsOfBytes packed).drop (i * bits)).take bits))) := by
  rw [Nat.succ_mul] at h
  unfold readPackedBe
  dsimp only
  set first := i * bits / 8 with hfirst
  set last := (i * bits + bits - 1) / 8 with hlast
  rw [if_neg (by omega), foldl_bytes]
  -- the window is what leads up to the value, the value, and what trails it
  have hwindow : bitsOfBytes ((packed.drop first).take (last + 1 - first)) =
      ((bitsOfBytes packed).drop (8 * first)).take (i * bits - 8 * first) ++ ((bitsOfBytes packed).drop (i * bits)).take bits ++
        ((bitsOfBytes packed).drop (i * bits + bits)).take ((last + 1) * 8 - (i * bits + bits)) := by
    have hsplit : 8 * (last + 1 - first) = (i * bits - 8 * first) + (bits + ((last + 1) * 8 - (i * bits + bits))) := by omega
    rw [bitsOfBytes_take (by rw [List.length_drop]; omega), bitsOfBytes_drop (by omega), hsplit, List.take_add,
      List.take_add, List.drop_drop, List.drop_drop,
      ← List.append_assoc]
    congr 3 <;> (congr 1; omega)
  have hfield : (((bitsOfBytes packed).drop (i * bits)).take bits).length = bits := by
    rw [List.length_take, List.length_drop, length_bitsOfBytes]
    omega
  have htrail : (((bitsOfBytes packed).drop (i * bits + bits)).take ((last + 1) * 8 - (i * bits + bits))).length =
      (last + 1) * 8 - (i * bits + bits) := by
    rw [List.length_take, List.length_drop, length_bitsOfBytes]
    omega
  have hmiddle := natOfBits_middle (((bitsOfBytes packed).drop (8 * first)).take (i * bits - 8 * first))
    (((bitsOfBytes packed).drop (i * bits)).take bits)
    (((bitsOfBytes packed).drop (i * bits + bits)).take ((last + 1) * 8 - (i * bits + bits)))
  rw [hfield, htrail, ← hwindow] at hmiddle
  rw [Nat.shiftRight_eq_div_pow, Nat.and_two_pow_sub_one_eq_mod, hmiddle]

theorem packedRunLen_ok : packedRunLen bits n what = .ok len ↔ bits * n < 2 ^ 64 ∧ (bits * n + 7) / 8 + PACKED_CLOSING_PAD = len := by
  unfold packedRunLen
  split_ifs with h
  · exact ⟨fun heq => ⟨h, Except.ok.inj heq⟩, fun heq => congrArg _ heq.2⟩
  · exact iff_of_false nofun fun heq => h heq.1

/-- The values of a run are read before its closing bytes. -/
theorem readPackedBe_within (hbits : 0 < bits) (hrun : packedRunLen bits n what = .ok len) (hlen : len ≤ packed.length) (hi : i < n) :
    (∃ v, readPackedBe packed i bits = .ok v) ∧ readPackedBe (packed.take (len - PACKED_CLOSING_PAD)) i bits = readPackedBe packed i bits := by
  obtain ⟨-, rfl⟩ := packedRunLen_ok.1 hrun
  have hend : (i + 1) * bits ≤ bits * n := by
    rw [Nat.mul_comm bits n]
    exact Nat.mul_le_mul_right bits hi
  have hbytes : (bits * n + 7) / 8 ≤ packed.length := by
    omega
  rw [Nat.add_sub_cancel, readPackedBe_eq hbits (by omega)]
  refine ⟨⟨_, rfl⟩, ?_⟩
  have hend' : (i + 1) * bits = i * bits + bits := Nat.succ_mul i bits
  rw [readPackedBe_eq hbits (by rw [List.length_take]; omega), bitsOfBytes_take hbytes, List.drop_take, List.take_take, min_eq_left (by omega)]

/-! ## Runs -/

/-- `pack_be`. -/
def packRun (bits : ℕ) (values : List UInt64) : Bytes :=
  bytesOfBits (values.flatMap fun v => bitsOf bits v.toNat) ++ List.replicate PACKED_CLOSING_PAD 0

theorem length_packRun (bits : ℕ) (values : List UInt64) : (packRun bits values).length = (bits * values.length + 7) / 8 + PACKED_CLOSING_PAD := by
  simp [packRun, List.length_flatMap, Nat.mul_comm]

theorem take_bits (bits : ℕ) (values : List UInt64) (pad : List Bool) (h : i < values.length) :
    (((values.flatMap fun v => bitsOf bits v.toNat) ++ pad).drop (i * bits)).take bits = bitsOf bits values[i].toNat := by
  induction values generalizing i with
  | nil => simp at h
  | cons v values ih =>
    rw [List.flatMap_cons, List.append_assoc]
    cases i with
    | zero =>
      rw [Nat.zero_mul, List.drop_zero, List.take_append_of_le_length (by simp), List.take_of_length_le (by simp)]
      rfl
    | succ i =>
      have hdrop : List.drop bits (bitsOf bits v.toNat ++ ((values.flatMap fun v => bitsOf bits v.toNat) ++ pad)) =
          (values.flatMap fun v => bitsOf bits v.toNat) ++ pad := List.drop_left' (length_bitsOf bits _)
      rw [Nat.succ_mul, Nat.add_comm, ← List.drop_drop, hdrop]
      exact ih (by simpa using h)

/-- A value below the width is read back at its place, whatever stands behind the run. -/
theorem readPackedBe_packRun (hbits : 0 < bits) (hvalues : ∀ v ∈ values, v.toNat < 2 ^ bits) (more : Bytes) (h : i < values.length) :
    readPackedBe (packRun bits values ++ more) i bits = .ok values[i] := by
  have hend : (i + 1) * bits ≤ bits * values.length := by
    rw [Nat.mul_comm bits]
    exact Nat.mul_le_mul_right bits h
  rw [readPackedBe_eq hbits]
  · rw [packRun, List.append_assoc, bitsOfBytes_append, bitsOfBytes_bytesOfBits, List.append_assoc, take_bits bits values _ h, natOfBits_bitsOf,
      Nat.mod_eq_of_lt (hvalues _ (List.getElem_mem h)), UInt64.ofNat_toNat]
  · rw [List.length_append, length_packRun]
    omega

theorem pushPackedValues_packRun (hbits : 0 < bits) (hvalues : ∀ v ∈ values, v.toNat < 2 ^ bits) :
    pushPackedValues (packRun bits values) values.length bits = .ok values := by
  have hread : ∀ i ∈ List.range values.length, readPackedBe (packRun bits values) i bits = .ok (values.getD i 0) := by
    intro i hi
    have hi := List.mem_range.1 hi
    have h := readPackedBe_packRun hbits hvalues [] hi
    rwa [List.append_nil, ← List.getD_eq_getElem values 0 hi] at h
  rw [pushPackedValues, mapM_of_ok hread]
  congr 1
  apply List.ext_getElem
  · simp
  · intro i h h'
    simp [h']

/-! ## Header fields -/

section Fields

variable {data : Bytes} {pos : ℕ}

theorem beNat_beBytes (w n : ℕ) : beNat (beBytes w n) = n % 256 ^ w := by
  rw [beNat, beBytes, List.reverse_reverse, leNat_leBytes]

theorem beBytes_ne_nil {w : ℕ} (h : 0 < w) (n : ℕ) : beBytes w n ≠ [] := by
  intro hnil
  have := length_beBytes w n
  rw [hnil, List.length_nil] at this
  omega

theorem readU8_at {b : UInt8} (h : At data pos [b]) : readU8 what data pos = .ok (b, pos + 1) :=
  bind_ok (take_at h rfl (List.cons_ne_nil _ _))

theorem readU32Be_at {n : ℕ} (hn : n < 2 ^ 32) (h : At data pos (beBytes 4 n)) : readU32Be what data pos = .ok (n, pos + 4) := by
  refine (bind_ok (take_at h (length_beBytes 4 n) (beBytes_ne_nil (by decide) n))).trans ?_
  have hvalue : beNat (beBytes 4 n) = n := (beNat_beBytes 4 n).trans (Nat.mod_eq_of_lt hn)
  exact congrArg (fun value => Except.ok (value, pos + 4)) hvalue

theorem readI64Be_at {v : Int64} (h : At data pos (beBytes 8 v.toUInt64.toNat)) : readI64Be what data pos = .ok (v, pos + 8) := by
  refine (bind_ok (take_at h (length_beBytes 8 _) (beBytes_ne_nil (by decide) _))).trans ?_
  have hvalue : (UInt64.ofNat (beNat (beBytes 8 v.toUInt64.toNat))).toInt64 = v := by
    rw [beNat_beBytes, Nat.mod_eq_of_lt (show v.toUInt64.toNat < 256 ^ 8 from v.toUInt64.toNat_lt), UInt64.ofNat_toNat]
    rfl
  exact congrArg (fun value => Except.ok (value, pos + 8)) hvalue

end Fields

/-! ## Containers -/

def marked (elem : Bytes) : Bytes := beBytes 4 0 ++ elem

def endOffsets : ℕ → List Bytes → List ℕ
  | _, [] => []
  | prev, elem :: elems => (prev + (marked elem).length) :: endOffsets (prev + (marked elem).length) elems

def bodyImage (elems : List Bytes) : Bytes := beBytes 4 elems.length ++ ((endOffsets 0 elems).flatMap (beBytes 4) ++ elems.flatMap marked)

/-- A container of elements that are not null. -/
def genericImage (flags : UInt8) (elems : List Bytes) : Bytes :=
  [1] ++ ([flags] ++ (beBytes 4 (bodyImage elems).length ++ bodyImage elems))

@[simp] theorem length_endOffsets (prev : ℕ) (elems : List Bytes) : (endOffsets prev elems).length = elems.length := by
  induction elems generalizing prev with
  | nil => rfl
  | cons elem elems ih => simp [endOffsets, ih]

variable {elems : List Bytes}

/-- The offsets stay within the values. -/
theorem mem_endOffsets {prev stop : ℕ} (h : stop ∈ endOffsets prev elems) : stop ≤ prev + (elems.flatMap marked).length := by
  induction elems generalizing prev with
  | nil => cases h
  | cons elem elems ih =>
    rw [List.flatMap_cons, List.length_append]
    rcases List.mem_cons.1 h with rfl | h
    · omega
    · have := ih h
      omega

theorem elementsOf_marked (elems : List Bytes) (before : Bytes) (i : ℕ) :
    elementsOf what (before ++ elems.flatMap marked) i before.length (endOffsets before.length elems) = .ok (elems.map some) := by
  induction elems generalizing before i with
  | nil => simp [endOffsets, elementsOf]
  | cons elem elems ih =>
    have hmarker : (marked elem).take 4 = beBytes 4 0 := by rw [marked, List.take_left' (length_beBytes 4 0)]
    have hpayload : (marked elem).drop 4 = elem := by rw [marked, List.drop_left' (length_beBytes 4 0)]
    have hlen : (marked elem).length = elem.length + 4 := by rw [marked, List.length_append, length_beBytes, Nat.add_comm]
    have hslice : ((before ++ (elem :: elems).flatMap marked).drop before.length).take
      (before.length + (marked elem).length - before.length) = marked elem := by
      rw [List.drop_left, Nat.add_sub_cancel_left, List.flatMap_cons, List.take_left]
    have hnext := ih (before ++ marked elem) (i + 1)
    rw [List.length_append, List.append_assoc, ← List.flatMap_cons (f := marked)] at hnext
    rw [endOffsets, elementsOf, if_neg (by simp only [List.length_append, List.flatMap_cons]; omega)]
    rw [hslice, if_neg (by omega), hmarker, hpayload, beNat_beBytes, if_pos (by decide), hnext]
    rfl

theorem length_flatMap_beBytes (ns : List ℕ) : (ns.flatMap (beBytes 4)).length = ns.length * 4 := by
  simp [List.length_flatMap]

theorem genericBody_image {maxElements : ℕ} (hcount : elems.length ≤ min maxElements MAX_GI_ELEMENTS)
    (hsize : (bodyImage elems).length < 2 ^ 32) {body : Bytes} {pos : ℕ} (h : body.drop pos = bodyImage elems) :
    ∃ next, genericBody maxElements what body pos = .ok (elems.map some, next) := by
  have hbody : (bodyImage elems).length = 4 + (elems.length * 4 + (elems.flatMap marked).length) := by
    rw [bodyImage, List.length_append, List.length_append, length_beBytes, length_flatMap_beBytes, length_endOffsets]
  have hlen : body.length - pos = (bodyImage elems).length := by rw [← h, List.length_drop]
  obtain ⟨hnum, hrest⟩ := At.append_iff.1 (h.symm ▸ List.prefix_rfl : At body pos (bodyImage elems))
  obtain ⟨hends, -⟩ := At.append_iff.1 hrest
  rw [length_beBytes] at hends
  have hvalues : body.drop (pos + 4 + elems.length * 4) = elems.flatMap marked := by
    rw [Nat.add_assoc, ← List.drop_drop, h, bodyImage, ← List.drop_drop, List.drop_left' (length_beBytes 4 _), List.drop_left']
    rw [length_flatMap_beBytes, length_endOffsets]
  have hread : ∀ stop ∈ endOffsets 0 elems, ∀ i pos, At body pos (beBytes 4 stop) →
      (fun _ => readU32Be what : ℕ → Reader ℕ) i body pos = .ok (stop, pos + (beBytes 4 stop).length) := by
    intro stop hstop _ _ hat
    have := mem_endOffsets hstop
    exact readU32Be_at (by omega) hat
  have hcollect := collect_at hread 0 hends
  rw [length_endOffsets, length_flatMap_beBytes, length_endOffsets] at hcollect
  refine ⟨pos + 4 + elems.length * 4, ?_⟩
  refine (bind_ok (readU32Be_at (by omega) hnum)).trans ?_
  refine (bind_ok (refuse_not (by omega) _)).trans ?_
  refine (bind_ok (need_of_le (by omega))).trans ?_
  refine (bind_ok hcollect).trans ?_
  refine (bind_ok rfl).trans ?_
  have helements : elementsOf what (body.drop (pos + 4 + elems.length * 4)) 0 0 (endOffsets 0 elems) = .ok (elems.map some) := by
    rw [hvalues]
    exact elementsOf_marked elems [] 0
  rw [helements]
  rfl

/-- A container is read to its end, wherever it stands. -/
theorem parseGenericIndexed_image {maxElements : ℕ} (hcount : elems.length ≤ min maxElements MAX_GI_ELEMENTS)
    (hsize : (bodyImage elems).length < 2 ^ 32) {flags : UInt8} {data : Bytes} {pos : ℕ} (h : At data pos (genericImage flags elems)) :
    parseGenericIndexed maxElements what data pos = .ok (elems.map some, pos + (genericImage flags elems).length) := by
  obtain ⟨hversion, h⟩ := At.append_iff.1 h
  obtain ⟨hflags, h⟩ := At.append_iff.1 h
  obtain ⟨hlen, hbody⟩ := At.append_iff.1 h
  simp only [List.length_singleton, length_beBytes] at hflags hlen hbody
  have hne : bodyImage elems ≠ [] := List.append_ne_nil_of_left_ne_nil (beBytes_ne_nil (by decide) _) _
  have hle := hbody.length_le hne
  have hdrop : (data.take (pos + 1 + 1 + 4 + (bodyImage elems).length)).drop (pos + 1 + 1 + 4) = bodyImage elems := by
    rw [List.drop_take, Nat.add_sub_cancel_left, hbody.take_eq]
  obtain ⟨next, hread⟩ : ∃ next, genericBody maxElements what _ _ = .ok (elems.map some, next) := genericBody_image hcount hsize hdrop
  refine (bind_ok (readU8_at hversion)).trans ?_
  refine (bind_ok (refuse_not (by simp) _)).trans ?_
  refine (bind_ok (readU8_at hflags)).trans ?_
  refine (bind_ok (readU32Be_at hsize hlen)).trans ?_
  rw [within, if_neg (by omega), hread]
  simp only [genericImage, List.length_append, List.length_singleton, length_beBytes]
  congr 2
  omega

/-! ## Blocks -/

/-- `k` blocks of `n` values each, the last of what is left. -/
def chunksOf (n : ℕ) : ℕ → List UInt64 → List (List UInt64)
  | 0, _ => []
  | k + 1, values => values.take n :: chunksOf n k (values.drop n)

/-- As many blocks as the values need. -/
def blockCount (n len : ℕ) : ℕ := (len + n - 1) / n

variable {lz4 : Lz4} {head : NumericPartHead} {compression : UInt8}

/-- What a block stores for a run. -/
def Stored (lz4 : Lz4) (compression : UInt8) (run stored : Bytes) : Prop :=
  if compression = COMPRESSION_LZ4 then lz4.decompressInto stored run.length = .ok run else run <+: stored

variable {run : Bytes}

theorem Stored.length_le {stored : Bytes} (h : Stored lz4 compression run stored) :
    run.length ≤ stored.length * if compression = COMPRESSION_LZ4 then MAX_LZ4_RATIO else 1 := by
  unfold Stored at h
  split_ifs at h ⊢ with hlz4
  · have := lz4.expands _ _ _ h
    unfold MAX_LZ4_RATIO
    omega
  · rw [Nat.mul_one]
    exact h.length_le

theorem unpackBlock_stored {stored : Bytes} (h : Stored lz4 compression run stored) (i : ℕ) :
    unpackBlock lz4 compression what i stored run.length = .ok run := by
  have hle := h.length_le
  unfold Stored at h
  unfold unpackBlock
  split_ifs at h hle ⊢ with hlz4 hshort hshort
  · omega
  · simp [decompressRaw, h]
  · omega
  · rw [List.prefix_iff_eq_take.1 h, List.length_take, min_eq_left h.length_le]

theorem blockCount_zero {n : ℕ} : blockCount n 0 = 0 := by
  rcases Nat.eq_zero_or_pos n with rfl | hpos
  · rfl
  · exact Nat.div_eq_of_lt (by omega)

theorem blockCount_pos {n len : ℕ} (hn : 0 < n) (hlen : 0 < len) : blockCount n len = blockCount n (len - n) + 1 := by
  unfold blockCount
  rcases Nat.lt_or_ge len n with hlt | hge
  · rw [Nat.sub_eq_zero_of_le hlt.le, Nat.div_eq_of_lt (show 0 + n - 1 < n by omega)]
    exact Nat.div_eq_of_lt_le (by omega) (by omega)
  · rw [show len + n - 1 = len - n + n - 1 + n by omega, Nat.add_div_right _ hn]

variable {blocks : List Bytes}

/-- Each block gives its values, until none is owed. -/
theorem decodeBlocks_stored (hbits : 0 < bits) (hvpb : 0 < head.valuesPerBlock) (hwidth : bits * head.valuesPerBlock < 2 ^ 64) (k i : ℕ)
    (values : List UInt64) (hvalues : ∀ v ∈ values, v.toNat < 2 ^ bits) (hk : k = blockCount head.valuesPerBlock values.length)
    (hstored : List.Forall₂ (fun chunk => Stored lz4 compression (packRun bits chunk)) (chunksOf head.valuesPerBlock k values) blocks) :
    decodeBlocks lz4 head bits compression what i values.length (blocks.map some) = .ok values := by
  induction k generalizing i values blocks with
  | zero =>
    obtain rfl : values = [] := by
      by_contra hne
      rw [blockCount_pos hvpb (List.length_pos_of_ne_nil hne)] at hk
      cases hk
    cases hstored
    rfl
  | succ k ih =>
    rcases List.eq_nil_or_concat values with rfl | hne
    · rw [List.length_nil, blockCount_zero] at hk
      cases hk
    have hpos : 0 < values.length := by
      obtain ⟨_, _, rfl⟩ := hne
      simp
    cases hstored with
    | @cons chunk block _ blocks hblock hblocks =>
      have hchunk : (values.take head.valuesPerBlock).length = min values.length head.valuesPerBlock := by rw [List.length_take, Nat.min_comm]
      have hrun : packedRunLen bits (min values.length head.valuesPerBlock) what = .ok (packRun bits (values.take head.valuesPerBlock)).length := by
        rw [length_packRun, hchunk, packedRunLen_ok]
        exact ⟨(Nat.mul_le_mul_left bits (Nat.min_le_right _ _)).trans_lt hwidth, rfl⟩
      have hpush := pushPackedValues_packRun hbits (fun v hv => hvalues v (List.mem_of_mem_take hv) : ∀ v ∈ values.take head.valuesPerBlock, _)
      have hrest := ih (i + 1) (values.drop head.valuesPerBlock) (fun v hv => hvalues v (List.mem_of_mem_drop hv))
        (by rw [List.length_drop]; rw [blockCount_pos hvpb hpos] at hk; omega) hblocks
      have howed : values.length - min values.length head.valuesPerBlock = (values.drop head.valuesPerBlock).length := by
        rw [List.length_drop]
        omega
      rw [hchunk] at hpush
      rw [List.map_cons, decodeBlocks, if_neg (by omega)]
      dsimp only
      rw [hrun, ok_bind, unpackBlock_stored hblock, ok_bind, hpush, ok_bind, howed, hrest, ok_bind]
      exact congrArg _ (List.take_append_drop _ _)

/-! ## Block input -/

/-- The bytes of a run. -/
def runLen (bits n : ℕ) : ℕ := (bits * n + 7) / 8 + PACKED_CLOSING_PAD

/-- The runs of the blocks are the full ones and that of the tail. -/
theorem sum_runs (bits : ℕ) (hvpb : 0 < n) (k : ℕ) (values : List UInt64) (hk : k = blockCount n values.length) :
    ((chunksOf n k values).map fun chunk => (packRun bits chunk).length).sum =
      runLen bits n * (values.length / n) + if values.length % n > 0 then runLen bits (values.length % n) else 0 := by
  induction k generalizing values with
  | zero =>
    obtain rfl : values = [] := by
      by_contra hne
      rw [blockCount_pos hvpb (List.length_pos_of_ne_nil hne)] at hk
      cases hk
    simp [chunksOf]
  | succ k ih =>
    have hpos : 0 < values.length := by
      rw [List.length_pos_iff]
      rintro rfl
      rw [List.length_nil, blockCount_zero] at hk
      cases hk
    have hrest := ih (values.drop n) (by rw [List.length_drop]; rw [blockCount_pos hvpb hpos] at hk; omega)
    rw [chunksOf, List.map_cons, List.sum_cons, hrest, length_packRun, List.length_take, List.length_drop]
    rcases Nat.lt_or_ge values.length n with hlt | hge
    · -- the tail
      rw [min_eq_right hlt.le, Nat.sub_eq_zero_of_le hlt.le, Nat.div_eq_of_lt hlt, Nat.mod_eq_of_lt hlt, if_pos hpos]
      simp [runLen]
    · rw [min_eq_left hge, Nat.div_eq_sub_div hvpb hge, Nat.mod_eq_sub_mod hge, Nat.mul_succ, runLen]
      omega

/-- The blocks can expand to their runs. -/
theorem sum_runs_le {chunks : List (List UInt64)}
    (hstored : List.Forall₂ (fun chunk => Stored lz4 compression (packRun bits chunk)) chunks blocks) :
    (chunks.map fun chunk => (packRun bits chunk).length).sum ≤
      (blocks.map List.length).sum * if compression = COMPRESSION_LZ4 then MAX_LZ4_RATIO else 1 := by
  induction hstored with
  | nil => simp
  | cons hblock _ ih =>
    rw [List.map_cons, List.sum_cons, List.map_cons, List.sum_cons, Nat.add_mul]
    exact Nat.add_le_add hblock.length_le ih

theorem amplificationBound_stored (hvpb : 0 < head.valuesPerBlock) (hwidth : bits * head.valuesPerBlock < 2 ^ 64) (hlen :
    head.numValues = values.length) (hstored : List.Forall₂ (fun chunk => Stored lz4 compression (packRun bits chunk))
      (chunksOf head.valuesPerBlock (blockCount head.valuesPerBlock values.length) values) blocks) :
    amplificationBound head bits compression what (runLen bits head.valuesPerBlock) (blocks.map some) = .ok () := by
  have hsum := sum_runs bits hvpb _ values rfl
  have hle := sum_runs_le hstored
  have htail : tailRunLen head bits what = .ok (if values.length % head.valuesPerBlock > 0
    then runLen bits (values.length % head.valuesPerBlock) else 0) := by
    unfold tailRunLen
    dsimp only
    rw [hlen]
    split_ifs with hpos
    · have hmod := Nat.mod_lt values.length hvpb
      exact packedRunLen_ok.2 ⟨(Nat.mul_le_mul_left bits hmod.le).trans_lt hwidth, rfl⟩
    · rfl
  have hblocks : (blocks.map some).reduceOption = blocks := by simp [List.reduceOption]
  rw [amplificationBound, htail, ok_bind, if_neg]
  rw [hlen, hblocks, ← hsum]
  exact Nat.not_lt.2 hle

/-! ## Streams -/

/-- How a writer stores values of a width: one run, or a container of blocks. A block
has at most so many bytes, and a container so many blocks and bytes. -/
inductive PackedImage (lz4 : Lz4) (valuesPerBlock bits : ℕ) (values : List UInt64) : UInt8 → Bytes → Prop
  | run : bits * values.length < 2 ^ 64 → PackedImage lz4 valuesPerBlock bits values COMPRESSION_NONE_RAW (packRun bits values)
  | blocks {compression flags : UInt8} {blocks : List Bytes} :
      compression = COMPRESSION_LZ4 ∨ compression = COMPRESSION_UNCOMPRESSED →
      0 < valuesPerBlock → runLen bits valuesPerBlock ≤ MAX_BLOCK_BYTES →
      blockCount valuesPerBlock values.length ≤ MAX_GI_ELEMENTS → (bodyImage blocks).length < 2 ^ 32 →
      List.Forall₂ (fun chunk => Stored lz4 compression (packRun bits chunk))
      (chunksOf valuesPerBlock (blockCount valuesPerBlock values.length) values) blocks →
      PackedImage lz4 valuesPerBlock bits values compression (genericImage flags blocks)

@[simp] theorem length_chunksOf (n k : ℕ) (values : List UInt64) : (chunksOf n k values).length = k := by
  induction k generalizing values with
  | zero => rfl
  | succ k ih => simp [chunksOf, ih]

/-- The values are read back, and the image to its end. -/
theorem decodePackedLongStream_image (hbits : 0 < bits) (hvalues : ∀ v ∈ values, v.toNat < 2 ^ bits) (hlen : head.numValues = values.length)
    {image : Bytes} (himage : PackedImage lz4 head.valuesPerBlock bits values compression image) {data : Bytes} {pos : ℕ} (hat : At data pos image) :
    decodePackedLongStream lz4 head bits compression what data pos = .ok (values, pos + image.length) := by
  cases himage with
  | run hfits =>
    have htotal : packedRunLen bits head.numValues what = .ok (packRun bits values).length := by
      rw [length_packRun, hlen]
      exact packedRunLen_ok.2 ⟨hfits, rfl⟩
    have hne : packRun bits values ≠ [] := List.append_ne_nil_of_right_ne_nil _ (by decide)
    rw [decodePackedLongStream, if_pos rfl, htotal]
    refine (bind_ok rfl).trans ?_
    refine (bind_ok (take_at hat rfl hne)).trans ?_
    rw [hlen, pushPackedValues_packRun hbits hvalues]
    rfl
  | @blocks _ flags blocks hcompression hvpb hblock hcount hsize hstored =>
    have hraw : compression ≠ COMPRESSION_NONE_RAW := by
      rcases hcompression with rfl | rfl <;> decide
    have hsupported : ¬(compression ≠ COMPRESSION_LZ4 ∧ compression ≠ COMPRESSION_UNCOMPRESSED) := by
      rw [not_and_or, not_not, not_not]
      exact hcompression
    have hwidth : bits * head.valuesPerBlock < 2 ^ 64 := by
      rw [runLen, MAX_BLOCK_BYTES] at hblock
      omega
    have hfull : packedRunLen bits head.valuesPerBlock what = .ok (runLen bits head.valuesPerBlock) := packedRunLen_ok.2 ⟨hwidth, rfl⟩
    have hblocks : blocks.length = blockCount head.valuesPerBlock head.numValues := by
      rw [← hstored.length_eq, length_chunksOf, hlen]
    have hcontainer : parseGenericIndexed (blockCount head.valuesPerBlock head.numValues) what data pos =
        .ok (blocks.map some, pos + (genericImage flags blocks).length) :=
      parseGenericIndexed_image (le_min hblocks.le (hblocks ▸ hlen ▸ hcount)) hsize hat
    rw [decodePackedLongStream, if_neg hraw, if_neg hsupported, if_neg hvpb.ne', hfull]
    refine (bind_ok rfl).trans ?_
    refine (bind_ok (refuse_not (Nat.not_lt.2 hblock) _)).trans ?_
    refine (bind_ok hcontainer).trans ?_
    refine (bind_ok (refuse_not (by rw [List.length_map]; exact not_not.2 hblocks) _)).trans ?_
    rw [amplificationBound_stored hvpb hwidth hlen hstored]
    refine (bind_ok rfl).trans ?_
    rw [hlen, decodeBlocks_stored hbits hvpb hwidth _ 0 values hvalues rfl hstored]
    rfl

/-! ## Bounds -/

theorem elementsOf_ne_panic (valueBytes : Bytes) (i prev : ℕ) (ends : List ℕ) : elementsOf what valueBytes i prev ends ≠ .error .panic := by
  induction ends generalizing i prev with
  | nil =>
    unfold elementsOf
    split_ifs <;> nofun
  | cons stop ends ih =>
    unfold elementsOf
    dsimp only
    split_ifs
    · nofun
    · nofun
    · exact bind_ne_error (ih _ _) fun _ _ => nofun
    · nofun
    · exact bind_ne_error (ih _ _) fun _ _ => nofun
    · nofun

theorem parseGenericIndexed_avoids (maxElements : ℕ) : Avoids (parseGenericIndexed maxElements what) .panic := by
  have hu8 : Avoids (readU8 what) .panic := bind_avoids (take_avoids nofun) fun _ => pure_avoids _ _
  have hu32 : Avoids (readU32Be what) .panic := bind_avoids (take_avoids nofun) fun _ => pure_avoids _ _
  have hbody : Avoids (genericBody maxElements what) .panic := by
    refine bind_avoids hu32 fun num => bind_avoids (refuse_avoids nofun) fun _ => ?_
    refine bind_avoids (need_avoids nofun) fun _ => bind_avoids (collect_avoids (fun _ => hu32) num 0) fun ends => ?_
    exact bind_avoids (fun _ _ => nofun) fun valueBytes => ofExcept_avoids (elementsOf_ne_panic valueBytes 0 0 ends)
  refine bind_avoids hu8 fun version => bind_avoids (refuse_avoids nofun) fun _ => bind_avoids hu8 fun _ => bind_avoids hu32 fun bodySize => ?_
  intro data pos h
  unfold within at h
  split at h
  · cases h
  · split at h
    · rename_i e hread
      cases h
      exact hbody _ _ hread
    · cases h

/-- A buffer that holds the run gives all its values. -/
theorem pushPackedValues_ok (hbits : 0 < bits) (hrun : packedRunLen bits n what = .ok len) (hlen : len ≤ packed.length) :
    ∃ values, pushPackedValues packed n bits = .ok values := by
  have hread : ∀ i ∈ List.range n, readPackedBe packed i bits = .ok ((readPackedBe packed i bits).toOption.getD 0) := by
    intro i hi
    obtain ⟨⟨v, hv⟩, -⟩ := readPackedBe_within hbits hrun hlen (List.mem_range.1 hi)
    rw [hv]
    rfl
  exact ⟨_, mapM_of_ok hread⟩

theorem length_unpackBlock {block : Bytes} {expected : ℕ} (h : unpackBlock lz4 compression what i block expected = .ok run) :
    run.length = expected := by
  unfold unpackBlock at h
  split_ifs at h
  · split at h
    · cases h
    · rename_i hraw
      cases h
      unfold decompressRaw at hraw
      split at hraw
      · cases hraw
      · split_ifs at hraw with hlen
        cases hraw
        exact not_not.1 hlen
  · cases h
    rw [List.length_take]
    omega

theorem packedRunLen_ne_panic : packedRunLen bits n what ≠ .error .panic := by
  unfold packedRunLen
  split_ifs <;> nofun

theorem unpackBlock_ne_panic (block : Bytes) (expected : ℕ) : unpackBlock lz4 compression what i block expected ≠ .error .panic := by
  unfold unpackBlock
  split_ifs
  · nofun
  · split <;> nofun
  · nofun
  · nofun

theorem decodeBlocks_ne_panic (hbits : 0 < bits) (i remaining : ℕ) (blocks : List (Option Bytes)) :
    decodeBlocks lz4 head bits compression what i remaining blocks ≠ .error .panic := by
  induction blocks generalizing i remaining with
  | nil =>
    unfold decodeBlocks
    split_ifs <;> nofun
  | cons block blocks ih =>
    cases block with
    | none => exact nofun
    | some block =>
      rw [decodeBlocks]
      split_ifs
      · exact nofun
      · refine bind_ne_error packedRunLen_ne_panic fun expected hrun => ?_
        refine bind_ne_error (unpackBlock_ne_panic block expected) fun packed hpacked => ?_
        -- the buffer has the bytes of the run
        obtain ⟨values, hvalues⟩ := pushPackedValues_ok hbits hrun (length_unpackBlock hpacked).ge
        rw [hvalues]
        exact bind_ne_error nofun fun _ _ => bind_ne_error (ih _ _) fun _ _ => nofun

/-- No part makes a value be read outside its run. -/
theorem decodePackedLongStream_avoids (hbits : 0 < bits) : Avoids (decodePackedLongStream lz4 head bits compression what) .panic := by
  unfold decodePackedLongStream
  split_ifs
  · intro data pos h
    rcases hrun : packedRunLen bits head.numValues what with e | total
    · rw [hrun] at h
      cases h
      exact packedRunLen_ne_panic hrun
    · rw [hrun, bind_ok rfl] at h
      rcases htake : take total (truncated what total) data pos with e | ⟨packed, next⟩
      · simp only [bind, htake] at h
        cases h
        have havoids : Avoids (take total (truncated what total)) .panic := take_avoids nofun
        exact havoids data pos htake
      · have hlen : total ≤ packed.length := by
          unfold take at htake
          split at htake
          · cases htake
          · cases htake
            rw [List.length_take, List.length_drop]
            omega
        obtain ⟨values, hvalues⟩ := pushPackedValues_ok hbits hrun hlen
        rw [bind_ok htake, hvalues] at h
        cases h
  · exact fail_avoids nofun
  · exact fail_avoids nofun
  · refine bind_avoids (ofExcept_avoids packedRunLen_ne_panic) fun fullBlockLen => bind_avoids (refuse_avoids nofun) fun _ => ?_
    refine bind_avoids (parseGenericIndexed_avoids _) fun blocks => bind_avoids (refuse_avoids nofun) fun _ => ?_
    refine bind_avoids (ofExcept_avoids ?_) fun _ => ofExcept_avoids (decodeBlocks_ne_panic hbits 0 _ blocks)
    refine bind_ne_error ?_ fun tail _ => by dsimp only; split_ifs <;> nofun
    unfold tailRunLen
    dsimp only
    split_ifs
    · exact packedRunLen_ne_panic
    · exact nofun

end

/-! ## Encoded longs are read back

A delta part holds offsets from a base, and a table part places in a table. What a
width holds is read back from every image whose blocks stay within the reader's caps:
a block that could have more bytes than `MAX_BLOCK_BYTES` is refused, though it has few. -/

variable {lz4 : Lz4} {head : NumericPartHead} {bits : ℕ} {what : String} {values : List UInt64} {image data : Bytes} {pos : ℕ}

theorem pos_of_supported (h : bits ∈ SUPPORTED_PACKED_WIDTHS) : 0 < bits := by
  have hall : ∀ w ∈ SUPPORTED_PACKED_WIDTHS, 0 < w := by decide
  exact hall bits h

/-! ## Delta -/

def deltaHeader (base : Int64) (bits : ℕ) : Bytes :=
  [LONG_ENCODING_FORMAT_DELTA] ++ ([LONG_ENCODING_HEADER_VERSION] ++ (beBytes 8 base.toUInt64.toNat ++ beBytes 4 bits))

theorem decodeAutoLongPart_delta (hbits : bits ∈ SUPPORTED_PACKED_WIDTHS) (hvalues : ∀ v ∈ values, v.toNat < 2 ^ bits)
    (hlen : head.numValues = values.length)
    (himage : PackedImage lz4 head.valuesPerBlock bits values (head.compression + LONG_ENCODING_FLAG_CLEAR_OFFSET) image) {base : Int64}
    (hat : At data pos (deltaHeader base bits ++ image)) :
    decodeAutoLongPart lz4 head what data pos =
      .ok (values.map (fun off => base + off.toInt64), pos + (deltaHeader base bits ++ image).length) := by
  obtain ⟨hheader, himageAt⟩ := At.append_iff.1 hat
  obtain ⟨hformat, hheader⟩ := At.append_iff.1 hheader
  obtain ⟨hversion, hheader⟩ := At.append_iff.1 hheader
  obtain ⟨hbase, hwidth⟩ := At.append_iff.1 hheader
  simp only [List.length_singleton, length_beBytes] at hversion hbase hwidth
  have hsmall : bits < 2 ^ 32 := by
    have hall : ∀ w ∈ SUPPORTED_PACKED_WIDTHS, w < 2 ^ 32 := by decide
    exact hall bits hbits
  have hstart : pos + (deltaHeader base bits).length = pos + 1 + 1 + 8 + 4 := by
    simp [deltaHeader, Nat.add_assoc]
  rw [hstart] at himageAt
  have hvalid : validatePackedWidth bits what = .ok () := if_pos hbits
  refine (bind_ok (readU8_at hformat)).trans ?_
  refine (bind_ok (readU8_at hversion)).trans ?_
  refine (bind_ok (refuse_not (not_not.2 rfl) _)).trans ?_
  refine (bind_ok (readI64Be_at hbase)).trans ?_
  refine (bind_ok (readU32Be_at hsmall hwidth)).trans ?_
  rw [hvalid]
  refine (bind_ok rfl).trans ?_
  refine (bind_ok (decodePackedLongStream_image (pos_of_supported hbits) hvalues hlen himage himageAt)).trans ?_
  rw [List.length_append, ← Nat.add_assoc, hstart]
  rfl

/-! ## Tables -/

def tableHeader (table : List Int64) : Bytes :=
  [LONG_ENCODING_FORMAT_TABLE] ++
    ([LONG_ENCODING_HEADER_VERSION] ++ (beBytes 4 table.length ++ table.flatMap fun v => beBytes 8 v.toUInt64.toNat))

variable {table : List Int64}

theorem lookupIds_ok {ids : List UInt64} (h : ∀ id ∈ ids, id.toNat < table.length) (row : ℕ) :
    lookupIds what table row ids = .ok (ids.map fun id => table.getD id.toNat 0) := by
  induction ids generalizing row with
  | nil => rfl
  | cons id ids ih =>
    rw [List.forall_mem_cons] at h
    have hvalue : table[id.toNat]? = some (table.getD id.toNat 0) := by
      rw [List.getD_eq_getElem table 0 h.1, List.getElem?_eq_getElem h.1]
    rw [lookupIds, hvalue]
    dsimp only
    rw [ih h.2, ok_bind]
    rfl

/-- The first id that is out of range is refused. -/
theorem lookupIds_error (what : String) {ids : List UInt64} (h : ∃ id ∈ ids, table.length ≤ id.toNat) (row : ℕ) :
    ∃ text, lookupIds what table row ids = .error (.segment text) := by
  induction ids generalizing row with
  | nil => simp at h
  | cons id ids ih =>
    rcases Nat.lt_or_ge id.toNat table.length with hlt | hge
    · rw [List.exists_mem_cons_iff] at h
      obtain ⟨text, htext⟩ := ih (h.resolve_left (by omega)) (row + 1)
      rw [lookupIds, List.getElem?_eq_getElem hlt]
      rw [htext]
      exact ⟨text, rfl⟩
    · rw [lookupIds, List.getElem?_eq_none hge]
      exact ⟨_, rfl⟩

theorem bitsForTableSize_supported (tableSize : ℕ) : bitsForTableSize tableSize ∈ SUPPORTED_PACKED_WIDTHS := by
  unfold bitsForTableSize
  rcases hfind : SUPPORTED_PACKED_WIDTHS.find? fun w => 64 ≤ w ∨ tableSize ≤ 2 ^ w with _ | w
  · rw [hfind]
    decide
  · rw [hfind]
    exact List.mem_of_find?_eq_some hfind

theorem decodeAutoLongPart_table (hne : table ≠ []) (hsize : table.length ≤ MAX_LONG_TABLE_SIZE)
    (hvalues : ∀ v ∈ values, v.toNat < 2 ^ bitsForTableSize table.length) (hlen : head.numValues = values.length)
    (himage : PackedImage lz4 head.valuesPerBlock (bitsForTableSize table.length) values (head.compression + LONG_ENCODING_FLAG_CLEAR_OFFSET) image)
    (hat : At data pos (tableHeader table ++ image)) :
    decodeAutoLongPart lz4 head what data pos = ofExcept (lookupIds what table 0 values) data (pos + (tableHeader table ++ image).length) := by
  obtain ⟨hheader, himageAt⟩ := At.append_iff.1 hat
  obtain ⟨hformat, hheader⟩ := At.append_iff.1 hheader
  obtain ⟨hversion, hheader⟩ := At.append_iff.1 hheader
  obtain ⟨hcount, htable⟩ := At.append_iff.1 hheader
  simp only [List.length_singleton, length_beBytes] at hversion hcount htable
  have hpos := List.length_pos_of_ne_nil hne
  have hstart : pos + (tableHeader table).length = pos + 1 + 1 + 4 + (table.flatMap fun v => beBytes 8 v.toUInt64.toNat).length := by
    simp only [tableHeader, List.length_append, List.length_singleton, length_beBytes]
    omega
  rw [hstart] at himageAt
  have hentry : ∀ v ∈ table, ∀ i pos, At data pos (beBytes 8 v.toUInt64.toNat) →
      (fun _ => readI64Be "long table entry" : ℕ → Reader Int64) i data pos = .ok (v, pos + (beBytes 8 v.toUInt64.toNat).length) := by
    intro v _ _ _ hv
    exact readI64Be_at hv
  refine (bind_ok (readU8_at hformat)).trans ?_
  refine (bind_ok (readU8_at hversion)).trans ?_
  refine (bind_ok (refuse_not (not_not.2 rfl) _)).trans ?_
  refine (bind_ok (readU32Be_at (by rw [MAX_LONG_TABLE_SIZE] at hsize; omega) hcount)).trans ?_
  refine (bind_ok (refuse_not (by omega) _)).trans ?_
  refine (bind_ok (collect_at hentry 0 htable)).trans ?_
  refine (bind_ok (decodePackedLongStream_image (pos_of_supported (bitsForTableSize_supported _)) hvalues hlen himage himageAt)).trans ?_
  rw [List.length_append, ← Nat.add_assoc, hstart]

/-! ## What holds of a width -/

/-- Values of a width, as they are read back. -/
structure ReadBack (lz4 : Lz4) (head : NumericPartHead) (bits : ℕ) (values : List UInt64) (what : String) : Prop where
  /-- Each from the run, whatever stands behind it. -/
  value : ∀ (more : Bytes) (i : ℕ) (h : i < values.length), readPackedBe (packRun bits values ++ more) i bits = .ok values[i]
  /-- All of them from one run or from blocks. -/
  stream : ∀ compression image data pos, PackedImage lz4 head.valuesPerBlock bits values compression image → At data pos image →
    decodePackedLongStream lz4 head bits compression what data pos = .ok (values, pos + image.length)
  delta : ∀ base image data pos, PackedImage lz4 head.valuesPerBlock bits values (head.compression + LONG_ENCODING_FLAG_CLEAR_OFFSET) image →
    At data pos (deltaHeader base bits ++ image) →
    decodeAutoLongPart lz4 head what data pos = .ok (values.map fun off => base + off.toInt64, pos + (deltaHeader base bits ++ image).length)
  table : ∀ table image data pos, table ≠ [] → table.length ≤ MAX_LONG_TABLE_SIZE → bitsForTableSize table.length = bits →
    PackedImage lz4 head.valuesPerBlock bits values (head.compression + LONG_ENCODING_FLAG_CLEAR_OFFSET) image →
    At data pos (tableHeader table ++ image) → (∀ id ∈ values, id.toNat < table.length) →
    decodeAutoLongPart lz4 head what data pos = .ok (values.map fun id => table.getD id.toNat 0, pos + (tableHeader table ++ image).length)
  outOfRange : ∀ table image data pos, table ≠ [] → table.length ≤ MAX_LONG_TABLE_SIZE → bitsForTableSize table.length = bits →
    PackedImage lz4 head.valuesPerBlock bits values (head.compression + LONG_ENCODING_FLAG_CLEAR_OFFSET) image →
    At data pos (tableHeader table ++ image) → (∃ id ∈ values, table.length ≤ id.toNat) →
    ∃ text, decodeAutoLongPart lz4 head what data pos = .error (.segment text)

/-- What is read of any bytes at a width. -/
structure StaysInside (lz4 : Lz4) (bits : ℕ) (what : String) : Prop where
  /-- The values of a run do not depend on what follows it, its pad included. -/
  run : ∀ (packed : Bytes) (n len i : ℕ), packedRunLen bits n what = .ok len → len ≤ packed.length → i < n →
    (∃ v, readPackedBe packed i bits = .ok v) ∧ readPackedBe (packed.take (len - PACKED_CLOSING_PAD)) i bits = readPackedBe packed i bits
  stream : ∀ head compression data pos, decodePackedLongStream lz4 head bits compression what data pos ≠ .error .panic

/-- At every width, what was packed is read back and nothing is read past its run. -/
theorem packedLongs_readBack (lz4 : Lz4) (what : String) (hbits : bits ∈ SUPPORTED_PACKED_WIDTHS) (hvalues : ∀ v ∈ values, v.toNat < 2 ^ bits)
    (hlen : head.numValues = values.length) : ReadBack lz4 head bits values what ∧ StaysInside lz4 bits what := by
  have hpos := pos_of_supported hbits
  refine ⟨⟨?_, ?_, ?_, ?_, ?_⟩, ?_, ?_⟩
  · intro more i h
    exact readPackedBe_packRun hpos hvalues more h
  · intro compression image data pos himage hat
    exact decodePackedLongStream_image hpos hvalues hlen himage hat
  · intro base image data pos himage hat
    exact decodeAutoLongPart_delta hbits hvalues hlen himage hat
  · rintro table image data pos hne hsize rfl himage hat hids
    rw [decodeAutoLongPart_table hne hsize hvalues hlen himage hat, lookupIds_ok hids]
    rfl
  · rintro table image data pos hne hsize rfl himage hat hids
    obtain ⟨text, htext⟩ := lookupIds_error what hids 0
    rw [decodeAutoLongPart_table hne hsize hvalues hlen himage hat, htext]
    exact ⟨text, rfl⟩
  · intro packed n len i hrun hlen hi
    exact readPackedBe_within hpos hrun hlen hi
  · intro head compression data pos
    exact decodePackedLongStream_avoids hpos data pos

/-- A decoder of blocks of one run of literals, with its length in the token. -/
def takeLiterals (input : Bytes) (len : ℕ) : Except String Bytes :=
  match input with
  | [] => .error "empty block"
  | token :: out =>
    if token.toNat ≠ 16 * out.length ∨ token.toNat = 0xF0 then .error "not one run of literals"
    else if len < out.length then .error "output too small"
    else .ok out

theorem takeLiterals_expands (input : Bytes) (len : ℕ) (out : Bytes) (h : takeLiterals input len = .ok out) : out.length ≤ 255 * input.length := by
  cases input with
  | nil => cases h
  | cons token bytes =>
    unfold takeLiterals at h
    dsimp only at h
    split_ifs at h
    cases h
    rw [List.length_cons]
    omega

def literals : Lz4 := ⟨takeLiterals, takeLiterals_expands⟩

def twelveBlocks : List Bytes := [0x70 :: packRun 12 [1, 0xABC], 0x60 :: packRun 12 [4095]]

theorem twelveBlocks_image : PackedImage literals 2 12 [1, 0xABC, 4095] COMPRESSION_LZ4 (genericImage 0 twelveBlocks) :=
  .blocks (Or.inl rfl) (by decide) (by decide) (by decide) (by decide) (.cons rfl (.cons rfl .nil))

/-- Three values of 12 bits, two to a block. -/
theorem packedLongs_readBack_twelve :
    decodePackedLongStream literals ⟨3, 2, 0x83⟩ 12 COMPRESSION_LZ4 "column" (genericImage 0 twelveBlocks) 0 =
      .ok ([1, 0xABC, 4095], 0 + (genericImage 0 twelveBlocks).length) :=
  (packedLongs_readBack literals "column" (by decide) (by decide) rfl).1.stream _ _ _ _ twelveBlocks_image List.prefix_rfl

/-- A block of one value is refused, since a full one would be too large. -/
theorem wideBlock_refused :
    List.Forall₂ (fun chunk => Stored literals COMPRESSION_UNCOMPRESSED (packRun 64 chunk))
    (chunksOf (2 ^ 26) (blockCount (2 ^ 26) 1) [0]) [packRun 64 [0]] ∧
      ∃ text, decodePackedLongStream literals ⟨1, 2 ^ 26, 0x81⟩ 64 COMPRESSION_UNCOMPRESSED "column" (genericImage 0 [packRun 64 [0]]) 0 =
        .error (.segment text) := by
  refine ⟨?_, _, rfl⟩
  exact .cons (List.prefix_rfl) .nil

end FerroDruid.Segment.Native
