import FerroDruid.Compression.Lzf
/-!
# Blocks

`[4B compressed size BE][4B uncompressed size BE][data]`, for each codec. The
reader checks the sizes of a block before it hands the data to the codec, and
the length after. `decompressBlock_frame` is what it makes of a block that the
writer framed.
-/

namespace FerroDruid.Compression

open FerroDruid.Lib List

inductive Codec where
  | None
  | Lz4
  | Lzf
  | Zstd
  deriving DecidableEq, Repr

/-- The third-party codecs: raw LZ4 blocks, decompressed for a known size, and
zstd at level 3. The streaming decoder gives some bytes, then ends or fails. -/
structure ThirdParty where
  lz4_compress : Bytes → Bytes
  lz4_decompress : Bytes → Nat → Except String Bytes
  zstd_encode_all : Bytes → Except String Bytes
  zstd_decoder : Bytes → Except String (Bytes × Option String)

/-- Decompression inverts compression. -/
structure ThirdParty.Inverts (t : ThirdParty) : Prop where
  lz4 : ∀ x, t.lz4_decompress (t.lz4_compress x) x.length = .ok x
  zstd : ∀ x c, t.zstd_encode_all x = .ok c → t.zstd_decoder c = .ok (x, none)

section

variable (t : ThirdParty)

/-- `lz4_flex::compress_prepend_size`. -/
def compressPrependSize (input : Bytes) : Bytes := leBytes 4 input.length ++ t.lz4_compress input

/-- `lz4_flex::decompress_size_prepended`, of four bytes at least. -/
def decompressSizePrepended (input : Bytes) : Except String Bytes := t.lz4_decompress (input.drop 4) (leAt input 4 0)

/-- `read_to_end` through `take(cap)`: what comes after the cap is not looked at. -/
def readTake (cap : Nat) : Bytes × Option String → Except String Bytes
  | (out, failure) =>
    if cap ≤ out.length then .ok (out.take cap)
    else match failure with
      | some e => .error e
      | none => .ok out

def compress (codec : Codec) (input : Bytes) : Except CompressionError Bytes :=
  match codec with
  | .None => .ok input
  | .Lz4 => .ok (compressPrependSize t input)
  | .Lzf => Lzf.compress input
  | .Zstd => (t.zstd_encode_all input).mapError .Compress

def decompress (codec : Codec) (input : Bytes) (expected_len : Nat) : Except CompressionError Bytes :=
  match codec with
  | .None => .ok input
  | .Lz4 =>
    if input.length < 4 then .error (.Decompress "LZ4: input shorter than 4-byte size prefix")
    else
      let claimed := leAt input 4 0
      if claimed > expected_len then
        .error (.Decompress s!"LZ4: size prefix {claimed} exceeds max_decompressed {expected_len}")
      else (decompressSizePrepended t input).mapError .Decompress
  | .Lzf => Lzf.decompress input expected_len
  | .Zstd =>
    match (t.zstd_decoder input).bind (readTake (min (expected_len + 1) (2 ^ 64 - 1))) with
    | .error e => .error (.Decompress e)
    | .ok out =>
      if out.length > expected_len then
        .error (.Decompress s!"Zstd: decompressed size exceeds max_decompressed {expected_len}")
      else .ok out

def compressBlock (codec : Codec) (input : Bytes) : Except CompressionError Bytes :=
  match compress t codec input with
  | .error e => .error e
  | .ok compressed =>
    if 2 ^ 32 ≤ compressed.length then .error (.Compress "compressed size exceeds u32")
    else if 2 ^ 32 ≤ input.length then .error (.Compress "uncompressed size exceeds u32")
    else .ok (beBytes 4 compressed.length ++ beBytes 4 input.length ++ compressed)

def MAX_BLOCK_EXPANSION_RATIO : Nat := 256

def decompressBlock (codec : Codec) (input : Bytes) : Except CompressionError Bytes :=
  if input.length < 8 then .error (.InvalidBlock s!"block too short: {input.length} bytes (need >= 8)")
  else
    let comp_len := beAt input 4 0
    let uncomp_len := beAt input 4 4
    let data := input.drop 8
    if data.length < comp_len then
      .error (.InvalidBlock s!"block data truncated: have {data.length} bytes, header says {comp_len}")
    else
      let max_uncomp := min (comp_len * MAX_BLOCK_EXPANSION_RATIO) (2 ^ 64 - 1)
      if uncomp_len > max_uncomp then
        .error (.InvalidBlock
          s!"block uncomp_len {uncomp_len} exceeds {MAX_BLOCK_EXPANSION_RATIO}× comp_len {comp_len} ({max_uncomp} max); refusing to decompress")
      else match decompress t codec (data.take comp_len) uncomp_len with
        | .error e => .error e
        | .ok out =>
          if out.length ≠ uncomp_len then
            .error (.InvalidBlock
              s!"block decoded to {out.length} bytes but the header declared uncomp_len {uncomp_len}")
          else .ok out

/-! ## Framing -/

/-- A framed block is read as the codec reads its data, unless it claims to expand
more than 256 times. -/
theorem decompressBlock_frame (codec : Codec) {x c : Bytes} (hc : c.length < 2 ^ 32) (hx : x.length < 2 ^ 32) :
    decompressBlock t codec (beBytes 4 c.length ++ beBytes 4 x.length ++ c) = .ok x ↔
      x.length ≤ 256 * c.length ∧ decompress t codec c x.length = .ok x := by
  have hhead : ∀ rest, At (beBytes 4 c.length ++ beBytes 4 x.length ++ rest) 0 (beBytes 4 c.length ++ beBytes 4 x.length) :=
    fun rest => prefix_append _ _
  obtain ⟨hcomp, huncomp⟩ := At.append_iff.1 (hhead c)
  have hcomp := beAt_of_at hcomp
  have huncomp := beAt_of_at huncomp
  rw [Nat.mod_eq_of_lt (by simpa using hc)] at hcomp
  rw [length_beBytes, Nat.mod_eq_of_lt (by simpa using hx)] at huncomp
  have hdata : (beBytes 4 c.length ++ beBytes 4 x.length ++ c).drop 8 = c := drop_left' (by simp)
  have hlen : (beBytes 4 c.length ++ beBytes 4 x.length ++ c).length = 8 + c.length := by
    simp only [length_append, length_beBytes]
  unfold decompressBlock
  rw [if_neg (by omega), hdata]
  simp only [hcomp, huncomp, take_length, MAX_BLOCK_EXPANSION_RATIO]
  rw [if_neg (lt_irrefl _)]
  split
  · simp only [reduceCtorEq, false_iff]
    omega
  · have hratio : x.length ≤ 256 * c.length := by omega
    simp only [hratio, true_and]
    cases hd : decompress t codec c x.length with
    | error e => simp
    | ok out =>
      by_cases hl : out.length = x.length
      · simp [hl]
      · have hne : out ≠ x := fun h => hl (by rw [h])
        simp [hl, hne]

end

/-! ## Blocks are read back

A block of any codec is read back when it does not expand more than 256 times.
Nothing needs to be asked of LZF, whose tokens stand for less than that; LZ4 and
zstd are third-party code, and zstd does expand more. -/

variable {t : ThirdParty}

theorem readTake_all {cap : Nat} {out : Bytes} (h : out.length < cap) : readTake cap (out, none) = .ok out := by
  rw [readTake, if_neg (not_le.2 h)]

variable {codec : Codec} {x c : Bytes}

/-- What the codecs compressed, they decompress. -/
theorem decompress_compress (ht : t.Inverts) (hx : x.length < 2 ^ 32)
    (h : compress t codec x = .ok c) : decompress t codec c x.length = .ok x := by
  cases codec with
  | None =>
    cases h
    rfl
  | Lz4 =>
    cases h
    have hpre : At (compressPrependSize t x) 0 (leBytes 4 x.length) := prefix_append _ _
    have hsize := leAt_of_at hpre
    rw [Nat.mod_eq_of_lt (by simpa using hx)] at hsize
    have hlen : ¬ (compressPrependSize t x).length < 4 := by simp [compressPrependSize]
    have hraw : (compressPrependSize t x).drop 4 = t.lz4_compress x := drop_left' (by simp)
    simp only [decompress, hlen, if_false, hsize, lt_irrefl, decompressSizePrepended, hraw, ht.lz4]
    rfl
  | Lzf =>
    obtain ⟨c', hc', hencodes, -⟩ := Lzf.compress_spec (hx.trans (by decide))
    cases hc'.symm.trans h
    exact hencodes.decompress
  | Zstd =>
    cases hz : t.zstd_encode_all x with
    | error e => simp [compress, hz, Except.mapError] at h
    | ok frame =>
      have hframe : frame = c := by simpa [compress, hz, Except.mapError] using h
      have hdec := ht.zstd x frame hz
      have hcap : x.length < min (x.length + 1) (2 ^ 64 - 1) := by omega
      rw [hframe] at hdec
      simp only [decompress, hdec, Except.bind, readTake_all hcap]
      rw [if_neg (lt_irrefl _)]

theorem compressBlock_ok (h : compress t codec x = .ok c) (hc : c.length < 2 ^ 32)
    (hx : x.length < 2 ^ 32) : compressBlock t codec x = .ok (beBytes 4 c.length ++ beBytes 4 x.length ++ c) := by
  simp only [compressBlock, h]
  rw [if_neg (not_le.2 hc), if_neg (not_le.2 hx)]

theorem compressBlock_too_long (h : compress t codec x = .ok c) (hc : 2 ^ 32 ≤ c.length) :
    compressBlock t codec x = .error (.Compress "compressed size exceeds u32") := by
  simp only [compressBlock, h]
  rw [if_pos hc]

/-- A block is read back if and only if it expands no more than 256 times. -/
theorem block_iff_ratio (h : compress t codec x = .ok c)
    (hd : decompress t codec c x.length = .ok x) (hc : c.length < 2 ^ 32) (hx : x.length < 2 ^ 32) :
    (compressBlock t codec x >>= decompressBlock t codec) = .ok x ↔ x.length ≤ 256 * c.length := by
  rw [compressBlock_ok h hc hx, ok_bind, decompressBlock_frame t codec hc hx]
  exact and_iff_left hd

/-! ## LZF -/

/-- LZF is read back, and so is its block as far as the block can hold it. -/
theorem lzf_round_trip (t : ThirdParty) {x : Bytes} (hx : x.length < 2 ^ 32) :
    ∃ c, Lzf.compress x = .ok c ∧ Lzf.decompress c x.length = .ok x ∧ x.length ≤ 256 * c.length ∧
      (c.length < 2 ^ 32 → (compressBlock t .Lzf x >>= decompressBlock t .Lzf) = .ok x) ∧
      (2 ^ 32 ≤ c.length → compressBlock t .Lzf x = .error (.Compress "compressed size exceeds u32")) := by
  obtain ⟨c, hc, hencodes, hratio⟩ := Lzf.compress_spec (hx.trans (by decide))
  have hcompress : compress t .Lzf x = .ok c := hc
  have hdec := hencodes.decompress
  refine ⟨c, hc, hdec, hratio, fun hlen => (block_iff_ratio hcompress hdec hlen hx).2 hratio,
    fun hlen => compressBlock_too_long hcompress hlen⟩

/-- Codecs that store what they are given. -/
def storing : ThirdParty where
  lz4_compress := id
  lz4_decompress := fun c _ => .ok c
  zstd_encode_all := .ok
  zstd_decoder := fun c => .ok (c, none)

theorem lzf_round_trip_abc :
    ∃ c, Lzf.compress [97, 98, 99, 97, 98, 99, 97, 98, 99] = .ok c ∧
      Lzf.decompress c 9 = .ok [97, 98, 99, 97, 98, 99, 97, 98, 99] ∧ 9 ≤ 256 * c.length ∧
      (c.length < 2 ^ 32 → (compressBlock storing .Lzf [97, 98, 99, 97, 98, 99, 97, 98, 99] >>=
        decompressBlock storing .Lzf) = .ok [97, 98, 99, 97, 98, 99, 97, 98, 99]) ∧
      (2 ^ 32 ≤ c.length → compressBlock storing .Lzf [97, 98, 99, 97, 98, 99, 97, 98, 99] =
        .error (.Compress "compressed size exceeds u32")) :=
  @lzf_round_trip storing [97, 98, 99, 97, 98, 99, 97, 98, 99] (by simp)

/-- A counter of 14 bits in every three bytes: a mark, and its two halves. -/
def counterByte (k : Nat) : Nat :=
  if k % 3 = 0 then 255 else if k % 3 = 1 then k / 3 % 128 else k / 384 % 128

def counter (n : Nat) : Bytes := (List.range n).map fun k => UInt8.ofNat (counterByte k)

theorem counterByte_lt (k : Nat) : counterByte k < 256 := by
  unfold counterByte
  split_ifs <;> omega

variable {k : Nat}

theorem getElem?_counter {n : Nat} (h : k < n) : (counter n)[k]? = some (UInt8.ofNat (counterByte k)) := by
  simp [counter, h]

theorem counterByte_eq {n i j : Nat} (hi : i < n) (hj : j < n) (h : (counter n)[i]? = (counter n)[j]?) :
    counterByte i = counterByte j := by
  rw [getElem?_counter hi, getElem?_counter hj, Option.some.injEq] at h
  have hnat := congrArg UInt8.toNat h
  rwa [UInt8.toNat_ofNat_of_lt' (counterByte_lt i), UInt8.toNat_ofNat_of_lt' (counterByte_lt j)] at hnat

theorem counterByte_mark : counterByte k = 255 ↔ k % 3 = 0 := by
  unfold counterByte
  split_ifs <;> omega

theorem counterByte_low (h : k % 3 = 1) : counterByte k = k / 3 % 128 := by
  simp [counterByte, h]

theorem counterByte_high (h : k % 3 = 2) : counterByte k = k / 384 % 128 := by
  simp [counterByte, h]

/-- Where three bytes are equal the mark stands at the same place among them, and
so do the halves: the counter takes 49152 bytes to come back. -/
theorem counterByte_near {i j : Nat} (hlt : i < j) (hnear : j - i ≤ 8192) (h0 : counterByte i = counterByte j)
    (h1 : counterByte (i + 1) = counterByte (j + 1)) (h2 : counterByte (i + 2) = counterByte (j + 2)) : False := by
  have m0 : i % 3 = 0 ↔ j % 3 = 0 := by rw [← counterByte_mark, ← counterByte_mark, h0]
  have m1 : (i + 1) % 3 = 0 ↔ (j + 1) % 3 = 0 := by rw [← counterByte_mark, ← counterByte_mark, h1]
  have hr : i % 3 = 0 ∨ i % 3 = 1 ∨ i % 3 = 2 := by omega
  rcases hr with hr | hr | hr
  · rw [counterByte_low (by omega), counterByte_low (by omega)] at h1
    rw [counterByte_high (by omega), counterByte_high (by omega)] at h2
    omega
  · rw [counterByte_low (by omega), counterByte_low (by omega)] at h0
    rw [counterByte_high (by omega), counterByte_high (by omega)] at h1
    omega
  · rw [counterByte_high (by omega), counterByte_high (by omega)] at h0
    rw [counterByte_low (by omega), counterByte_low (by omega)] at h2
    omega

theorem length_counter (n : Nat) : (counter n).length = n := by simp [counter]

theorem unrepeated_counter (n : Nat) : Lzf.Unrepeated (counter n) := by
  intro i j hlt hnear hj hag
  rw [length_counter] at hj
  have h0 := counterByte_eq (by omega) (by omega) (hag 0 (by decide))
  have h1 := counterByte_eq (by omega) (by omega) (hag 1 (by decide))
  have h2 := counterByte_eq (by omega) (by omega) (hag 2 (by decide))
  exact counterByte_near hlt hnear h0 h1 h2

theorem block_counter_too_long {n : Nat} (hn : n < 2 ^ 32) (hlong : 32 * 2 ^ 32 ≤ 33 * n) :
    compressBlock storing .Lzf (counter n) = .error (.Compress "compressed size exceeds u32") := by
  have hlen : (counter n).length < 2 ^ 64 := by
    rw [length_counter]
    omega
  obtain ⟨c, hc, -⟩ := Lzf.compress_spec hlen
  have hmore := Lzf.length_compress_unrepeated (unrepeated_counter n) hlen hc
  rw [length_counter] at hmore
  exact compressBlock_too_long hc (by omega)

/-- The longest input whose length fits the header, and whose compressed length does not. -/
theorem lzf_block_too_long :
    (counter (2 ^ 32 - 1)).length < 2 ^ 32 ∧
      compressBlock storing .Lzf (counter (2 ^ 32 - 1)) = .error (.Compress "compressed size exceeds u32") := by
  refine ⟨?_, block_counter_too_long (by omega) (by omega)⟩
  rw [length_counter]
  omega

/-! ## Every codec -/

/-- What the block's reader asks of a codec: that it expands no more than 256 times. -/
def WithinRatio (t : ThirdParty) (x : Bytes) : Codec → Prop
  | .None | .Lzf => True
  | .Lz4 => x.length ≤ 256 * (4 + (t.lz4_compress x).length)
  | .Zstd => ∀ frame, t.zstd_encode_all x = .ok frame → x.length ≤ 256 * frame.length

theorem withinRatio_iff (h : compress t codec x = .ok c) (hx : x.length < 2 ^ 32) :
    WithinRatio t x codec ↔ x.length ≤ 256 * c.length := by
  cases codec with
  | None =>
    cases h
    exact iff_of_true trivial (by omega)
  | Lz4 =>
    cases h
    simp [WithinRatio, compressPrependSize]
  | Lzf =>
    obtain ⟨c', hc', -, hratio⟩ := Lzf.compress_spec (hx.trans (by decide))
    cases hc'.symm.trans h
    exact iff_of_true trivial hratio
  | Zstd =>
    cases hz : t.zstd_encode_all x with
    | error e => simp [compress, hz, Except.mapError] at h
    | ok frame =>
      have hframe : frame = c := by simpa [compress, hz, Except.mapError] using h
      simp [WithinRatio, hz, hframe]

/-- A block whose sizes fit its header is read back if and only if its codec
stays within the ratio. -/
theorem block_round_trip_iff (t : ThirdParty) (ht : t.Inverts) (codec : Codec) {x c : Bytes}
    (h : compress t codec x = .ok c) (hc : c.length < 2 ^ 32) (hx : x.length < 2 ^ 32) :
    (compressBlock t codec x >>= decompressBlock t codec) = .ok x ↔ WithinRatio t x codec := by
  rw [withinRatio_iff h hx]
  exact block_iff_ratio h (decompress_compress ht hx h) hc hx

/-- Five thousand zero bytes, and the zstd frame of 18 bytes that stands for them. -/
def zeros : Bytes := List.replicate 5000 0

def zerosFrame : Bytes :=
  [0x28, 0xb5, 0x2f, 0xfd, 0x00, 0x58, 0x4d, 0x00, 0x00, 0x10, 0x00, 0x00, 0x01, 0x00, 0x83, 0xd3, 0x03, 0x2c]

/-- The zstd frame of one raw block, as it is written for a few bytes. -/
def rawFrame (x : Bytes) : Bytes := [0x28, 0xb5, 0x2f, 0xfd, 0x00, 0x58] ++ leBytes 3 (1 + 8 * x.length) ++ x

/-- A zstd that shrinks the zeros as the real one does and stores everything else. -/
def shrinking : ThirdParty where
  lz4_compress := id
  lz4_decompress := fun c _ => .ok c
  zstd_encode_all := fun x => .ok (if x = zeros then zerosFrame else rawFrame x)
  zstd_decoder := fun c => .ok (if c = zerosFrame then zeros else c.drop 9, none)

theorem rawFrame_ne (x : Bytes) : rawFrame x ≠ zerosFrame := by
  intro h
  have hbyte := congrArg (·[6]?) h
  simp only [rawFrame, zerosFrame, leBytes, cons_append, nil_append, getElem?_cons_succ, getElem?_cons_zero,
    Option.some_inj, ← UInt8.toNat_inj, UInt8.toNat_ofNat'] at hbyte
  revert hbyte
  simp
  omega

theorem shrinking_inverts : shrinking.Inverts := by
  refine ⟨fun _ => rfl, fun x c h => ?_⟩
  have hc : (if x = zeros then zerosFrame else rawFrame x) = c := by simpa [shrinking] using h
  rw [← hc]
  by_cases hx : x = zeros
  · simp [shrinking, hx]
  · simp only [shrinking, if_neg hx, if_neg (rawFrame_ne x)]
    rfl

theorem compress_zeros : compress shrinking .Zstd zeros = .ok zerosFrame := by
  simp [compress, shrinking, Except.mapError]

/-- Five letters. -/
def letters : Bytes := [0x64, 0x72, 0x75, 0x69, 0x64]

theorem block_round_trip_letters :
    compress shrinking .Zstd letters = .ok [0x28, 0xb5, 0x2f, 0xfd, 0x00, 0x58, 0x29, 0x00, 0x00, 0x64, 0x72, 0x75, 0x69, 0x64] ∧
      (compressBlock shrinking .Zstd letters >>= decompressBlock shrinking .Zstd) = .ok letters := by
  have hne : letters ≠ zeros := by
    intro h
    have hlen := congrArg List.length h
    rw [zeros, length_replicate] at hlen
    cases hlen
  have hframe : compress shrinking .Zstd letters = .ok (rawFrame letters) := by simp [compress, shrinking, Except.mapError, hne]
  refine ⟨hframe, (block_round_trip_iff shrinking shrinking_inverts .Zstd hframe (by decide) (by decide)).2 fun frame h => ?_⟩
  obtain rfl : rawFrame letters = frame := by simpa [shrinking, hne] using h
  decide

/-- The block the writer makes of the zeros is refused by the reader. -/
theorem zeros_block_refused :
    shrinking.Inverts ∧ compressBlock shrinking .Zstd zeros =
        .ok (beBytes 4 zerosFrame.length ++ beBytes 4 zeros.length ++ zerosFrame) ∧
      ¬ (compressBlock shrinking .Zstd zeros >>= decompressBlock shrinking .Zstd) = .ok zeros := by
  have hlen : zeros.length = 5000 := length_replicate
  have hblock := compressBlock_ok compress_zeros (by simp [zerosFrame]) (by omega)
  refine ⟨shrinking_inverts, hblock, ?_⟩
  rw [hblock, ok_bind, decompressBlock_frame _ _ (by simp [zerosFrame]) (by omega), hlen]
  simp [zerosFrame]

end FerroDruid.Compression
