import FerroDruid.Lib.BackRef
import FerroDruid.Lib.Bytes
import FerroDruid.Lib.HashMap
/-!
# LZF

The `lzf` module: a stream of literal runs of up to 32 bytes and of
back-references over up to 8192 bytes, short ones for 3 to 8 bytes and long ones
for 9 to 264.
-/

namespace FerroDruid.Compression

open FerroDruid.Lib List

inductive CompressionError where
  | Decompress (msg : String)
  | Compress (msg : String)
  | InvalidBlock (msg : String)
  deriving DecidableEq, Repr

namespace Lzf

/-! ## The compressor -/

def hash (input : Bytes) (pos : Nat) : Nat :=
  let v : UInt32 := (input.getD pos 0).toUInt32 <<< 16 ||| (input.getD (pos + 1) 0).toUInt32 <<< 8 |||
    (input.getD (pos + 2) 0).toUInt32
  ((v * 0x01000193) >>> 16).toNat &&& 0xFFFF

def flushLiterals (out data : Bytes) : Bytes :=
  if data = [] then out else out ++ UInt8.ofNat (data.length - 1) :: data

/-- The locals of `compress`. A hash that was not stored has position 0. -/
structure Compressor where
  out : Bytes := []
  htab : HashMap Nat Nat := ∅
  ip : Nat := 0
  lit_start : Nat := 0
  lit_len : Nat := 0

/-- `usize::wrapping_sub`. -/
def wrappingSub (a b : Nat) : Nat := (a + (2 ^ 64 - b)) % 2 ^ 64

def shortRef (mlen off : Nat) : Bytes :=
  [UInt8.ofNat (mlen - 2) <<< 5 ||| (UInt8.ofNat (off >>> 8) &&& 0x1f), UInt8.ofNat (off &&& 0xff)]

def longRef (mlen off : Nat) : Bytes :=
  [(0xe0 : UInt8) ||| (UInt8.ofNat (off >>> 8) &&& 0x1f), UInt8.ofNat (off &&& 0xff), UInt8.ofNat (mlen - 9)]

section

variable (input : Bytes)

/-- The literals that are pending. -/
def pending (s : Compressor) : Bytes := (input.drop s.lit_start).take s.lit_len

/-- One byte more is a literal; a run of 32 is written. -/
def takeLiteral (s : Compressor) : Compressor :=
  let s := { s with lit_len := s.lit_len + 1, ip := s.ip + 1 }
  if s.lit_len = 32 then
    { s with out := flushLiterals s.out (pending input s), lit_start := s.ip, lit_len := 0 }
  else s

/-- The pending literals are written, and then a back-reference from `ip` to `ref_pos`. -/
def takeMatch (s : Compressor) (ref_pos off : Nat) : Compressor :=
  let out := flushLiterals s.out (pending input s)
  let mlen := matchLength input ref_pos s.ip (min (input.length - s.ip) 264 - 3) 3
  let ip := s.ip + mlen
  { out := out ++ if mlen < 9 then shortRef mlen off else longRef mlen off
    htab := if ip + 2 < input.length then AList.insert (hash input ip) (ip % 2 ^ 32) s.htab else s.htab
    ip := ip
    lit_start := ip
    lit_len := 0 }

/-- Whether the bytes at `ref_pos` are those at `ip`, close enough before them. -/
def isMatch (s : Compressor) (ref_pos off : Nat) : Bool :=
  decide (off < 8192) && decide (ref_pos < s.ip) && decide (s.ip + 2 < input.length) &&
    decide (input[ref_pos]? = input[s.ip]?) && decide (input[ref_pos + 1]? = input[s.ip + 1]?) &&
    decide (input[ref_pos + 2]? = input[s.ip + 2]?)

/-- One turn of the main loop. -/
def step (s : Compressor) : Compressor :=
  let h := hash input s.ip
  let ref_pos := s.htab.getD h 0
  let s := { s with htab := AList.insert h (s.ip % 2 ^ 32) s.htab }
  let off := wrappingSub (wrappingSub s.ip ref_pos) 1
  if isMatch input s ref_pos off then takeMatch input s ref_pos off else takeLiteral input s

/-- Turns of the main loop; each takes a byte at least. -/
def mainLoop : Nat → Compressor → Compressor
  | 0, s => s
  | n + 1, s => if s.ip + 2 < input.length then mainLoop n (step input s) else s

/-- The remaining bytes are literals. -/
def tailLoop : Nat → Compressor → Compressor
  | 0, s => s
  | n + 1, s => if s.ip < input.length then tailLoop n (takeLiteral input s) else s

def compress : Except CompressionError Bytes :=
  if input = [] then .ok []
  else
    let s := tailLoop input input.length (mainLoop input input.length {})
    .ok (if s.lit_len > 0 then flushLiterals s.out (pending input s) else s.out)

/-! ## The decompressor -/

/-- A back-reference of `mlen` bytes from `off` bytes before the end. -/
def expand (expected_len : Nat) (out : Bytes) (off mlen : Nat) : Except CompressionError Bytes :=
  if off > out.length then
    .error (.Decompress s!"LZF: back-reference offset {off} exceeds output length {out.length}")
  else if out.length + mlen > expected_len then .error (.Decompress "LZF: decoded output exceeds expected length")
  else .ok (copyFrom (out.length - off) mlen out)

def offset (ctrl : Nat) (low : UInt8) : Nat := ((ctrl &&& 0x1f) <<< 8 ||| low.toNat) + 1

/-- The loop of `decompress`, on what is left of the input. -/
def decode (expected_len : Nat) (input out : Bytes) : Except CompressionError Bytes :=
  match input with
  | [] => .ok out
  | c :: rest =>
    let ctrl := c.toNat
    if ctrl < 0x20 then
      let lit_len := ctrl + 1
      if lit_len > rest.length then .error (.Decompress "LZF: literal run exceeds input")
      else if out.length + lit_len > expected_len then
        .error (.Decompress "LZF: decoded output exceeds expected length")
      else decode expected_len (rest.drop lit_len) (out ++ rest.take lit_len)
    else if ctrl < 0xe0 then match rest with
      | [] => .error (.Decompress "LZF: truncated short backref")
      | low :: rest =>
        match expand expected_len out (offset ctrl low) ((ctrl >>> 5) + 2) with
        | .error e => .error e
        | .ok out => decode expected_len rest out
    else match rest with
      | low :: len :: rest =>
        match expand expected_len out (offset ctrl low) (len.toNat + 9) with
        | .error e => .error e
        | .ok out => decode expected_len rest out
      | _ => .error (.Decompress "LZF: truncated long backref")
termination_by input.length
decreasing_by
  all_goals simp only [List.length_cons, List.length_drop]
  all_goals omega

def decompress (expected_len : Nat) : Except CompressionError Bytes := decode expected_len input []

end

/-! ## What LZF writes, it reads back

`Encodes` says of a compressed prefix that the decoder rebuilds a prefix of the
input from it and goes on from there. A literal run and a back-reference each
extend it; `encoded_step` is one turn of the compressor. The hash table may
hold anything: a position it returns is compared with the input before it is
used. -/

variable {cap : Nat}

/-! ## Tokens -/

/-- After `c`, the decoder has written `x`. -/
def Encodes (cap : Nat) (c x : Bytes) : Prop := ∀ rest, decode cap (c ++ rest) [] = decode cap rest x

theorem encodes_nil : Encodes cap [] [] := fun _ => rfl

variable {c x : Bytes}

theorem Encodes.extend {t y : Bytes} (h : Encodes cap c x) (ht : ∀ rest, decode cap (t ++ rest) x = decode cap rest y) :
    Encodes cap (c ++ t) y := by
  intro rest
  rw [append_assoc, h, ht]

theorem Encodes.decompress (h : Encodes cap c x) : Lzf.decompress c cap = .ok x := by
  have hend := h []
  rw [append_nil] at hend
  rw [Lzf.decompress, hend, decode]

variable {out : Bytes}

theorem decode_literals {data : Bytes} (hpos : data ≠ []) (hlen : data.length ≤ 32)
    (hcap : out.length + data.length ≤ cap) (rest : Bytes) :
    decode cap (UInt8.ofNat (data.length - 1) :: data ++ rest) out = decode cap rest (out ++ data) := by
  have hpos := length_pos_of_ne_nil hpos
  have hctrl : (UInt8.ofNat (data.length - 1)).toNat = data.length - 1 :=
    UInt8.toNat_ofNat_of_lt' (show _ < 256 by omega)
  have hrun : data.length - 1 + 1 = data.length := Nat.sub_add_cancel hpos
  rw [cons_append, decode.eq_def]
  simp only [hctrl, hrun]
  rw [if_pos (by omega), if_neg (by simp), if_neg (by omega), drop_left, take_left]

theorem encodes_flush {data : Bytes} (h : Encodes cap c x) (hlen : data.length ≤ 32)
    (hcap : x.length + data.length ≤ cap) : Encodes cap (flushLiterals c data) (x ++ data) := by
  unfold flushLiterals
  split
  · rename_i hempty
    rw [hempty, append_nil]
    exact h
  · rename_i hne
    exact h.extend fun rest => decode_literals hne hlen hcap rest

/-! ## Back-references on the wire -/

theorem toNat_mask (b : UInt8) : (b &&& 0x1f).toNat = b.toNat % 32 := by
  exact Nat.and_two_pow_sub_one_eq_mod b.toNat 5

/-- The control byte of a back-reference: three bits of length above five of the offset. -/
theorem toNat_control {l : Nat} (hl : l < 8) (hi : Nat) :
    (UInt8.ofNat l <<< 5 ||| (UInt8.ofNat hi &&& 0x1f)).toNat = 32 * l + hi % 32 := by
  have hshift : (UInt8.ofNat l <<< 5).toNat = l <<< 5 := by
    simp only [UInt8.toNat_shiftLeft, UInt8.toNat_ofNat', UInt8.reduceToNat, Nat.shiftLeft_eq, Nat.reduceMod,
      Nat.reducePow]
    omega
  have hmask : (UInt8.ofNat hi &&& 0x1f).toNat = hi % 32 := by
    rw [toNat_mask, UInt8.toNat_ofNat']
    omega
  have hlow : hi % 32 < 2 ^ 5 := Nat.mod_lt _ (by decide)
  rw [UInt8.toNat_or, hmask, hshift, ← Nat.shiftLeft_add_eq_or_of_lt hlow, Nat.shiftLeft_eq]
  omega

variable {off : Nat}

/-- The offset is read back from its two bytes. -/
theorem offset_split {ctrl l : Nat} (hoff : off < 8192) (hctrl : ctrl = 32 * l + (off >>> 8) % 32) :
    offset ctrl (UInt8.ofNat (off &&& 0xff)) = off + 1 := by
  have hlow : (UInt8.ofNat (off &&& 0xff)).toNat = off % 256 := by
    rw [UInt8.toNat_ofNat', Nat.and_two_pow_sub_one_eq_mod off 8]
    omega
  have hhigh : ctrl &&& 0x1f = off / 256 := by
    rw [Nat.and_two_pow_sub_one_eq_mod ctrl 5, hctrl, Nat.shiftRight_eq_div_pow]
    omega
  have hbyte : off % 256 < 2 ^ 8 := Nat.mod_lt _ (by decide)
  rw [offset, hlow, hhigh, ← Nat.shiftLeft_add_eq_or_of_lt hbyte, Nat.shiftLeft_eq]
  omega

variable {mlen : Nat}

theorem expand_ok (hoff : off < out.length) (hcap : out.length + mlen ≤ cap) :
    expand cap out (off + 1) mlen = .ok (copyFrom (out.length - (off + 1)) mlen out) := by
  rw [expand, if_neg (by omega), if_neg (by omega)]

theorem decode_shortRef (hlo : 3 ≤ mlen) (hhi : mlen < 9) (hoff : off < 8192)
    (hout : off < out.length) (hcap : out.length + mlen ≤ cap) (rest : Bytes) :
    decode cap (shortRef mlen off ++ rest) out = decode cap rest (copyFrom (out.length - (off + 1)) mlen out) := by
  have hctrl := toNat_control (show mlen - 2 < 8 by omega) (off >>> 8)
  have hlen : (32 * (mlen - 2) + (off >>> 8) % 32) >>> 5 + 2 = mlen := by
    omega
  simp only [shortRef, cons_append, nil_append]
  rw [decode.eq_def]
  simp only [hctrl]
  rw [if_neg (by omega), if_pos (by omega)]
  simp only [offset_split hoff rfl, hlen, expand_ok hout hcap]

theorem decode_longRef (hlo : 9 ≤ mlen) (hhi : mlen ≤ 264) (hoff : off < 8192)
    (hout : off < out.length) (hcap : out.length + mlen ≤ cap) (rest : Bytes) :
    decode cap (longRef mlen off ++ rest) out = decode cap rest (copyFrom (out.length - (off + 1)) mlen out) := by
  have hctrl : ((0xe0 : UInt8) ||| (UInt8.ofNat (off >>> 8) &&& 0x1f)).toNat = 32 * 7 + (off >>> 8) % 32 :=
    toNat_control (show 7 < 8 by decide) (off >>> 8)
  have hlen : (UInt8.ofNat (mlen - 9)).toNat + 9 = mlen := by
    rw [UInt8.toNat_ofNat']
    omega
  simp only [longRef, cons_append, nil_append]
  rw [decode.eq_def]
  simp only [hctrl]
  rw [if_neg (by omega), if_neg (by omega)]
  simp only [offset_split hoff rfl, hlen, expand_ok hout hcap]

/-! ## The compressor -/

variable {input : Bytes}

/-- What is written stands for the input before the pending literals, and is not
less than a 256th of it. -/
structure Encoded (input : Bytes) (s : Compressor) : Prop where
  encodes : Encodes input.length s.out (input.take s.lit_start)
  run : s.lit_start + s.lit_len = s.ip
  short : s.lit_len < 32
  within : s.ip ≤ input.length
  dense : s.lit_start ≤ 256 * s.out.length

theorem encoded_start : Encoded input {} := ⟨encodes_nil, rfl, by decide, Nat.zero_le _, le_rfl⟩

variable {s : Compressor}

theorem length_pending (h : s.lit_start + s.lit_len ≤ input.length) :
    (pending input s).length = s.lit_len := by
  rw [pending, length_take, length_drop]
  omega

theorem take_pending (s : Compressor) :
    input.take s.lit_start ++ pending input s = input.take (s.lit_start + s.lit_len) :=
  take_add.symm

theorem length_flushLiterals (out data : Bytes) :
    (flushLiterals out data).length = out.length + if data = [] then 0 else data.length + 1 := by
  unfold flushLiterals
  split <;> simp

/-- The pending literals are written. -/
theorem encodes_pending (he : Encodes input.length s.out (input.take s.lit_start))
    (hlen : s.lit_len ≤ 32) (hin : s.lit_start + s.lit_len ≤ input.length) :
    Encodes input.length (flushLiterals s.out (pending input s)) (input.take (s.lit_start + s.lit_len)) := by
  have hpending := length_pending hin
  rw [← take_pending]
  refine encodes_flush he (by omega) ?_
  rw [hpending, length_take]
  omega

/-- Flushed literals are no less than their number. -/
theorem dense_pending (hd : s.lit_start ≤ 256 * s.out.length)
    (hin : s.lit_start + s.lit_len ≤ input.length) :
    s.lit_start + s.lit_len ≤ 256 * (flushLiterals s.out (pending input s)).length := by
  have hpending := length_pending hin
  rw [length_flushLiterals]
  split
  · rename_i hempty
    rw [hempty, length_nil] at hpending
    omega
  · omega

theorem encoded_takeLiteral (h : Encoded input s) (hip : s.ip < input.length) :
    Encoded input (takeLiteral input s) := by
  obtain ⟨hencodes, hrun, hshort, hwithin, hdense⟩ := h
  unfold takeLiteral
  simp only
  split
  · rename_i hfull
    have hin : s.lit_start + (s.lit_len + 1) ≤ input.length := by omega
    have hend : s.lit_start + (s.lit_len + 1) = s.ip + 1 := by omega
    refine ⟨?_, rfl, Nat.succ_pos 31, hip, ?_⟩
    · rw [← hend]
      exact @encodes_pending input { s with lit_len := s.lit_len + 1, ip := s.ip + 1 } hencodes hfull.le hin
    · rw [← hend]
      exact @dense_pending input { s with lit_len := s.lit_len + 1, ip := s.ip + 1 } hdense hin
  · exact ⟨hencodes, by simp only; omega, by simp only; omega, hip, hdense⟩

theorem wrappingSub_eq {a b : Nat} (h : b ≤ a) (ha : a < 2 ^ 64) : wrappingSub a b = a - b := by
  unfold wrappingSub
  omega

theorem encodes_ref {ip ref_pos : Nat} (h : Encodes input.length c (input.take ip))
    (hlo : 3 ≤ mlen) (hhi : mlen ≤ 264) (hin : ip + mlen ≤ input.length) (href : ref_pos < ip)
    (hoff : ip - ref_pos - 1 < 8192) (hag : Agrees input ref_pos ip mlen) :
    Encodes input.length (c ++ if mlen < 9 then shortRef mlen (ip - ref_pos - 1) else longRef mlen (ip - ref_pos - 1))
      (input.take (ip + mlen)) := by
  have hlen : (input.take ip).length = ip := length_take_of_le (by omega)
  have hcopy : copyFrom ((input.take ip).length - (ip - ref_pos - 1 + 1)) mlen (input.take ip) = input.take (ip + mlen) := by
    have hstart : (input.take ip).length - (ip - ref_pos - 1 + 1) = ref_pos := by omega
    rw [hstart]
    exact copyFrom_take href hin hag
  refine h.extend fun rest => ?_
  rw [← hcopy]
  split
  · exact decode_shortRef hlo (by omega) hoff (by omega) (by omega) rest
  · exact decode_longRef (by omega) hhi hoff (by omega) (by omega) rest

theorem encoded_takeMatch (h : Encoded input s) {ref_pos : Nat} (hip : s.ip + 2 < input.length)
    (href : ref_pos < s.ip) (hoff : s.ip - ref_pos - 1 < 8192) (hag : Agrees input ref_pos s.ip 3) :
    Encoded input (takeMatch input s ref_pos (s.ip - ref_pos - 1)) ∧
      s.ip < (takeMatch input s ref_pos (s.ip - ref_pos - 1)).ip := by
  obtain ⟨hlo, hhi, hagree⟩ := matchLength_spec input ref_pos s.ip (min (input.length - s.ip) 264 - 3) hag
  have hflush := encodes_pending h.encodes h.short.le (h.run ▸ h.within)
  have hdense := dense_pending h.dense (h.run ▸ h.within)
  rw [h.run] at hflush hdense
  unfold takeMatch
  simp only
  generalize matchLength input ref_pos s.ip (min (input.length - s.ip) 264 - 3) 3 = mlen at *
  have hin : s.ip + mlen ≤ input.length := by omega
  refine ⟨⟨encodes_ref hflush hlo (by omega) hin href hoff hagree, rfl, Nat.succ_pos 31, hin, ?_⟩, by omega⟩
  -- A short reference stands for 8 bytes at most, a long one for 264.
  simp only [length_append]
  split
  · simp only [shortRef, length_cons, length_nil]
    omega
  · simp only [longRef, length_cons, length_nil]
    omega

theorem agrees_three {i j : Nat} (h0 : input[i]? = input[j]?) (h1 : input[i + 1]? = input[j + 1]?)
    (h2 : input[i + 2]? = input[j + 2]?) : Agrees input i j 3 := by
  intro k hk
  have hk3 : k = 0 ∨ k = 1 ∨ k = 2 := by omega
  rcases hk3 with rfl | rfl | rfl
  · exact h0
  · exact h1
  · exact h2

theorem encoded_step (h : Encoded input s) (hlen : input.length < 2 ^ 64)
    (hip : s.ip + 2 < input.length) : Encoded input (step input s) ∧ s.ip < (step input s).ip := by
  have hstored : ∀ htab, Encoded input { s with htab } := fun _ => ⟨h.encodes, h.run, h.short, h.within, h.dense⟩
  unfold step
  simp only
  split
  · rename_i hmatch
    simp only [isMatch, Bool.and_eq_true, decide_eq_true_eq] at hmatch
    obtain ⟨⟨⟨⟨⟨hoff, href⟩, -⟩, h0⟩, h1⟩, h2⟩ := hmatch
    have hdist : wrappingSub (wrappingSub s.ip ((s.htab).getD (hash input s.ip) 0)) 1 =
        s.ip - (s.htab).getD (hash input s.ip) 0 - 1 := by
      rw [wrappingSub_eq href.le (by omega), wrappingSub_eq (by omega) (by omega)]
    rw [hdist] at hoff ⊢
    exact encoded_takeMatch (hstored _) hip href hoff (agrees_three h0 h1 h2)
  · refine ⟨encoded_takeLiteral (hstored _) (by simp only; omega), ?_⟩
    unfold takeLiteral
    simp only
    split <;> exact Nat.lt_succ_self _

/-! ## The two loops -/

/-- The main loop ends where no three bytes are left. -/
theorem encoded_mainLoop (hlen : input.length < 2 ^ 64) (n : Nat) (h : Encoded input s)
    (hn : input.length ≤ s.ip + n) :
    Encoded input (mainLoop input n s) ∧ input.length ≤ (mainLoop input n s).ip + 2 := by
  induction n generalizing s with
  | zero => exact ⟨h, by rw [mainLoop]; omega⟩
  | succ n ih =>
    unfold mainLoop
    split
    · rename_i hip
      obtain ⟨hstep, hlt⟩ := encoded_step h hlen hip
      exact ih hstep (by omega)
    · exact ⟨h, by omega⟩

theorem ip_takeLiteral (s : Compressor) : (takeLiteral input s).ip = s.ip + 1 := by
  unfold takeLiteral
  simp only
  split <;> rfl

/-- The tail loop ends at the end of the input. -/
theorem encoded_tailLoop (n : Nat) (h : Encoded input s) (hn : input.length ≤ s.ip + n) :
    Encoded input (tailLoop input n s) ∧ (tailLoop input n s).ip = input.length := by
  induction n generalizing s with
  | zero => exact ⟨h, le_antisymm h.within hn⟩
  | succ n ih =>
    unfold tailLoop
    split
    · rename_i hip
      exact ih (encoded_takeLiteral h hip) (by rw [ip_takeLiteral]; omega)
    · exact ⟨h, by have := h.within; omega⟩

/-- What `compress` returns: the decoder rebuilds the input from it, and it is
not less than a 256th of it. -/
theorem compress_spec (hlen : input.length < 2 ^ 64) :
    ∃ c, compress input = .ok c ∧ Encodes input.length c input ∧ input.length ≤ 256 * c.length := by
  unfold compress
  split
  · rename_i hempty
    subst hempty
    exact ⟨[], rfl, encodes_nil, Nat.zero_le _⟩
  · obtain ⟨hmain, -⟩ := encoded_mainLoop hlen input.length encoded_start (by simp)
    obtain ⟨htail, hip⟩ := encoded_tailLoop input.length hmain (by omega)
    refine ⟨_, rfl, ?_⟩
    generalize tailLoop input input.length (mainLoop input input.length {}) = s at *
    have hall : s.lit_start + s.lit_len = input.length := htail.run.trans hip
    split
    · have hencodes := encodes_pending htail.encodes htail.short.le hall.le
      have hdense := dense_pending htail.dense hall.le
      rw [hall] at hencodes hdense
      rw [take_length] at hencodes
      exact ⟨hencodes, hdense⟩
    · have hstart : s.lit_start = input.length := by omega
      have hencodes := htail.encodes
      have hdense := htail.dense
      rw [hstart] at hencodes hdense
      rw [take_length] at hencodes
      exact ⟨hencodes, hdense⟩

/-! ## Input without near repeats -/

/-- No three bytes are repeated within reach of a back-reference. -/
def Unrepeated (input : Bytes) : Prop :=
  ∀ i j, i < j → j - i ≤ 8192 → j + 2 < input.length → ¬ Agrees input i j 3

/-- Everything so far was written as literals, in full runs. -/
structure AllLiteral (input : Bytes) (s : Compressor) : Prop where
  full : 32 * s.out.length = 33 * s.lit_start
  run : s.lit_start + s.lit_len = s.ip
  short : s.lit_len < 32
  within : s.ip ≤ input.length

theorem allLiteral_takeLiteral (h : AllLiteral input s) (hip : s.ip < input.length) :
    AllLiteral input (takeLiteral input s) := by
  obtain ⟨hfull, hrun, hshort, hwithin⟩ := h
  unfold takeLiteral
  simp only
  split
  · rename_i h32
    have hin : s.lit_start + (s.lit_len + 1) ≤ input.length := by omega
    have hpending := @length_pending input { s with lit_len := s.lit_len + 1, ip := s.ip + 1 } hin
    have hne : pending input { s with lit_len := s.lit_len + 1, ip := s.ip + 1 } ≠ [] := by
      intro hempty
      rw [hempty, length_nil] at hpending
      cases hpending
    refine ⟨?_, rfl, Nat.succ_pos 31, hip⟩
    simp only [length_flushLiterals, hne, if_false, hpending]
    omega
  · exact ⟨hfull, by simp only; omega, by simp only; omega, hip⟩

theorem allLiteral_step (hinput : Unrepeated input) (h : AllLiteral input s)
    (hlen : input.length < 2 ^ 64) (hip : s.ip + 2 < input.length) : AllLiteral input (step input s) := by
  have hstored : ∀ htab, AllLiteral input { s with htab } := fun _ => ⟨h.full, h.run, h.short, h.within⟩
  unfold step
  simp only
  split
  · rename_i hmatch
    simp only [isMatch, Bool.and_eq_true, decide_eq_true_eq] at hmatch
    obtain ⟨⟨⟨⟨⟨hoff, href⟩, -⟩, h0⟩, h1⟩, h2⟩ := hmatch
    rw [wrappingSub_eq href.le (by omega), wrappingSub_eq (by omega) (by omega)] at hoff
    refine absurd ?_ (hinput _ _ href (by omega) hip)
    exact agrees_three h0 h1 h2
  · exact allLiteral_takeLiteral (hstored _) (by simp only; omega)

theorem allLiteral_mainLoop (hinput : Unrepeated input) (hlen : input.length < 2 ^ 64) (n : Nat)
    (h : AllLiteral input s) : AllLiteral input (mainLoop input n s) := by
  induction n generalizing s with
  | zero => exact h
  | succ n ih =>
    unfold mainLoop
    split
    · rename_i hip
      exact ih (allLiteral_step hinput h hlen hip)
    · exact h

theorem allLiteral_tailLoop (n : Nat) (h : AllLiteral input s) : AllLiteral input (tailLoop input n s) := by
  induction n generalizing s with
  | zero => exact h
  | succ n ih =>
    unfold tailLoop
    split
    · rename_i hip
      exact ih (allLiteral_takeLiteral h hip)
    · exact h

/-- Without repeats, every 32 bytes of input cost one more. -/
theorem length_compress_unrepeated (hinput : Unrepeated input) (hlen : input.length < 2 ^ 64)
    (hc : compress input = .ok c) : 33 * input.length ≤ 32 * c.length := by
  unfold compress at hc
  split at hc
  · rename_i hempty
    simp [hempty]
  · obtain ⟨hmain, -⟩ := encoded_mainLoop hlen input.length encoded_start (by simp)
    obtain ⟨-, hip⟩ := encoded_tailLoop input.length hmain (by omega)
    have hstart : AllLiteral input {} := ⟨rfl, rfl, Nat.succ_pos 31, Nat.zero_le _⟩
    have hlit := allLiteral_tailLoop input.length (allLiteral_mainLoop hinput hlen input.length hstart)
    simp only [Except.ok.injEq] at hc
    generalize tailLoop input input.length (mainLoop input input.length {}) = s at *
    obtain ⟨hfull, hrun, hshort, -⟩ := hlit
    rw [← hc]
    split
    · have hpending := @length_pending input s (hrun.trans hip).le
      rw [length_flushLiterals]
      split
      · rename_i hempty
        rw [hempty, length_nil] at hpending
        omega
      · omega
    · omega

end Lzf

end FerroDruid.Compression
