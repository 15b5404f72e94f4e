import FerroDruid.Lib.JsonNumber
import FerroDruid.Sketches.ThetaAlgebra
/-!
# Theta sketches on the wire

`serialize` and `deserialize` of `ferrodruid-sketches/src/theta.rs`. A sketch of Druid is
written with its exact bound and its seed hash; its `theta` follows from the bound,
and an image whose fields do not agree is refused.
-/

namespace FerroDruid.Sketches

open Lib List

/-- What a `Serialization` error says of a written sketch. -/
inductive WireFault where
  | headerShort
  | originShort
  | originFlags (flags : UInt8)
  | seedShort
  | version (other : UInt8)
  | zeroBound
  | thetaDisagrees (wire : F64) (thetaBound : UInt64) (derived : F64)
  | thetaRange (theta : F64)
  | overBudget (count maxSize : ℕ)
  | seedMissing (count : ℕ)
  | length (expected got : ℕ)
  | hashes (fault : DruidCompactFault)
  deriving DecidableEq

def versionNative : UInt8 := 1

def versionDruid : UInt8 := 2

def originFlagDruid : UInt8 := 0x01

def originFlagSeedHash : UInt8 := 0x02

/-- `theta` of a bound in the space of stored hashes. -/
def druidThetaFromBound (thetaBound : UInt64) : F64 := fraction thetaBound.toNat 64

namespace ThetaSketch

/-! ## Writing -/

/-- What comes before `theta`. -/
def origin (s : ThetaSketch) : Bytes :=
  if s.druidOrigin then
    match s.druidSeedHash with
    | some seed => versionDruid :: (originFlagDruid ||| originFlagSeedHash) :: (leBytes 8 s.thetaBound.toNat ++ leBytes 2 seed.toNat)
    | none => versionDruid :: originFlagDruid :: leBytes 8 s.thetaBound.toNat
  else [versionNative]

/-- Both sizes saturate at 32 bits. -/
def serialize (s : ThetaSketch) : Bytes :=
  s.origin ++ leBytes 8 s.theta.toBits ++ leBytes 4 (min s.maxSize (2 ^ 32 - 1)) ++ leBytes 4 (min s.hashes.card (2 ^ 32 - 1)) ++
    s.hashes.sort.flatMap fun h => leBytes 8 h.toNat

/-! ## Reading -/

structure Origin where
  druidOrigin : Bool
  druidSeedHash : Option UInt16
  thetaBound : UInt64
  headerLen : ℕ

def readOrigin (data : Bytes) : Except WireFault Origin :=
  match data with
  | [] => .error .headerShort
  | version :: _ =>
    if version = versionNative then .ok ⟨false, none, maxHash, 1⟩
    else if version = versionDruid then
      if data.length < 10 then .error .originShort
      else
        let flags := data.getD 1 0
        if flags &&& originFlagDruid = 0 ∨ flags &&& ~~~(originFlagDruid ||| originFlagSeedHash) ≠ 0 then .error (.originFlags flags)
        else
          let bound := UInt64.ofNat (leAt data 8 2)
          if flags &&& originFlagSeedHash ≠ 0 then
            if data.length < 12 then .error .seedShort else .ok ⟨true, some (.ofNat (leAt data 2 10)), bound, 12⟩
          else .ok ⟨true, none, bound, 10⟩
    else .error (.version version)

/-- A sketch of Druid has the `theta` of its bound. -/
def coherentTheta (o : Origin) (wireTheta : F64) : Except WireFault F64 :=
  if o.druidOrigin then
    if o.thetaBound = 0 then .error .zeroBound
    else if wireTheta.toBits ≠ (druidThetaFromBound o.thetaBound).toBits then
      .error (.thetaDisagrees wireTheta o.thetaBound (druidThetaFromBound o.thetaBound))
    else .ok (druidThetaFromBound o.thetaBound)
  else .ok wireTheta

def checkTheta (theta : F64) : Except WireFault Unit :=
  if theta.isFinite = false ∨ F64.le theta (.zero false) ∨ F64.lt (.ofInt 1) theta then .error (.thetaRange theta) else .ok ()

def checkRetained (o : Origin) (maxSize count expected got : ℕ) : Except WireFault Unit :=
  if maxSize < count then .error (.overBudget count maxSize)
  else if o.druidOrigin ∧ 0 < count ∧ o.druidSeedHash = none then .error (.seedMissing count)
  else if got < expected then .error (.length expected got)
  else .ok ()

def checkBelow (o : Origin) (hash : UInt64) : Except DruidCompactFault UInt64 :=
  if o.druidOrigin ∧ o.thetaBound ≤ hash then .error (.notBelowBound hash o.thetaBound) else .ok hash

def checkLength (data : Bytes) (minHeader : ℕ) : Except WireFault Unit := if data.length < minHeader then .error .headerShort else .ok ()

def deserialize (data : Bytes) : Except WireFault ThetaSketch := do
  let o ← readOrigin data
  let minHeader := o.headerLen + 8 + 4 + 4
  checkLength data minHeader
  let wireTheta := F64.ofBits (leAt data 8 o.headerLen)
  let maxSize := leAt data 4 (o.headerLen + 8)
  let count := leAt data 4 (o.headerLen + 12)
  let theta ← coherentTheta o wireTheta
  checkTheta theta
  checkRetained o maxSize count (minHeader + count * 8) data.length
  let hashes ← (readRetainedHashes data minHeader count false (checkBelow o)).mapError .hashes
  .ok ⟨theta, o.thetaBound, maxSize, hashes, o.druidOrigin, o.druidSeedHash⟩

end ThetaSketch

/-! ## Sketches survive the wire

Decoding and every set operation keep the fields of a sketch of Druid in agreement,
and a sketch whose fields agree is read back as it was. What is read has fields that agree. -/

/-! ## The fraction of a bound -/

theorem roundHalfEven_mul {c : ℕ} (hc : 0 < c) (n d : ℕ) : F64.roundHalfEven (c * n) (c * d) = F64.roundHalfEven n d := by
  have hlt : c * d < 2 * (c * (n % d)) ↔ d < 2 * (n % d) := by rw [Nat.mul_left_comm, Nat.mul_lt_mul_left hc]
  have heq : c * d = 2 * (c * (n % d)) ↔ d = 2 * (n % d) := by rw [Nat.mul_left_comm, Nat.mul_right_inj hc.ne']
  unfold F64.roundHalfEven
  rw [Nat.mul_mod_mul_left, Nat.mul_div_mul_left _ _ hc]
  simp only [hlt, heq]

/-- Doubling is exact. -/
theorem units_roundBits_two_mul {u : ℕ} (h : 2 ^ 52 ≤ u) : F64.units (F64.roundBits (2 * u)) = 2 * F64.units (F64.roundBits u) := by
  have hlog : 52 ≤ u.log2 := (Nat.le_log2 (by omega)).2 h
  have hlog' : (2 * u).log2 = u.log2 + 1 := Nat.log2_two_mul (by omega)
  rw [F64.units_roundBits_large (by omega), F64.units_roundBits_large hlog, hlog', show u.log2 + 1 - 52 = u.log2 - 52 + 1 by omega, pow_succ',
    roundHalfEven_mul (by decide)]
  ring

/-- The units of a fraction. -/
def fractionUnits (n e : ℕ) : ℕ := F64.units (F64.roundBits (F64.unitsOne * n)) / 2 ^ e

variable {n : ℕ}

theorem fractionUnits_mono (e : ℕ) {m : ℕ} (h : m ≤ n) : fractionUnits m e ≤ fractionUnits n e :=
  Nat.div_le_div_right (F64.units_mono (F64.roundBits_mono (Nat.mul_le_mul_left _ h)))

theorem fractionUnits_two_pow (e : ℕ) : fractionUnits (2 ^ e) e = F64.unitsOne := by
  have hunits := F64.units_two_pow_mul (1074 + e) (show 1 ≤ 2 ^ 53 by decide)
  rw [mul_one, pow_add, ← F64.unitsOne_eq] at hunits
  rw [fractionUnits, hunits]
  exact Nat.mul_div_cancel _ (Nat.two_pow_pos e)

theorem fractionUnits_pos (h : 0 < n) : 0 < fractionUnits n 64 := by
  have hone : F64.units (F64.roundBits (F64.unitsOne * 1)) = F64.unitsOne * 1 := F64.units_ofInt (by decide)
  refine lt_of_lt_of_le ?_ (fractionUnits_mono 64 h)
  rw [fractionUnits, hone, F64.unitsOne_eq, mul_one]
  exact Nat.div_pos (Nat.pow_le_pow_right (by decide) (by decide)) (by decide)

theorem roundBits_fraction_lt (h : n ≤ 2 ^ 64) : F64.roundBits (fractionUnits n 64) ≤ F64.roundBits F64.unitsOne := by
  have hmono := fractionUnits_mono 64 h
  rw [fractionUnits_two_pow] at hmono
  exact F64.roundBits_mono hmono

theorem roundBits_unitsOne : F64.roundBits F64.unitsOne < 2047 * 2 ^ 52 := by
  have h := F64.roundBits_int (k := 1) (by decide)
  rwa [mul_one] at h

/-- The bits of a fraction. -/
theorem fraction_eq (h : n ≤ 2 ^ 64) :
    fraction n 64 = .finite false ⟨F64.roundBits (fractionUnits n 64), (roundBits_fraction_lt h).trans_lt roundBits_unitsOne⟩ :=
  dif_pos ((roundBits_fraction_lt h).trans_lt roundBits_unitsOne)

theorem ofInt_one_eq : F64.ofInt 1 = .finite false ⟨F64.roundBits F64.unitsOne, roundBits_unitsOne⟩ := by
  have h := F64.ofInt_eq (n := 1) (by decide)
  simpa using h

/-- The two largest bounds are rounded up to the whole. -/
theorem fraction_full (hlow : 2 ^ 64 - 2 ≤ n) (hhigh : n ≤ 2 ^ 64) : fraction n 64 = .ofInt 1 := by
  have hround : F64.roundHalfEven n (2 ^ 11) = 2 ^ 53 := by
    unfold F64.roundHalfEven
    split_ifs <;> omega
  have hbits : F64.roundBits (F64.unitsOne * n) = F64.roundBits (F64.unitsOne * 2 ^ 64) := by
    have hscale : F64.unitsOne * 2 ^ 11 = 2 ^ 1085 := by rw [F64.unitsOne_eq, ← pow_add]
    have hbounds : ∀ {m : ℕ}, 2 ^ 63 ≤ m → m ≤ 2 ^ 64 → F64.roundBits (F64.unitsOne * m) = 2 ^ 52 * 1085 + F64.roundHalfEven m (2 ^ 11) := by
      intro m hm hm'
      rw [F64.roundBits_eq (e := 1085), ← hscale, roundHalfEven_mul F64.unitsOne_pos]
      · rw [F64.unitsOne_eq, show 52 + 1085 = 1074 + 63 by decide, pow_add]
        exact Nat.mul_le_mul_left _ hm
      · rw [F64.unitsOne_eq, show 53 + 1085 = 1074 + 64 by decide, pow_add]
        exact Nat.mul_le_mul_left _ hm'
    rw [hbounds (by omega) hhigh, hbounds (by decide) le_rfl, hround]
    rfl
  have hunits : fractionUnits n 64 = F64.unitsOne := by
    rw [← fractionUnits_two_pow 64, fractionUnits, fractionUnits, hbits]
  rw [fraction_eq hhigh, ofInt_one_eq]
  simp only [hunits]

/-- A bound is the doubled `thetaLong`, in twice the space. -/
theorem fraction_two_mul {t : ℕ} (h : 0 < t) : fraction (2 * t) 64 = fraction t 63 := by
  have hlarge : 2 ^ 52 ≤ F64.unitsOne * t := by
    rw [F64.unitsOne_eq]
    exact (Nat.pow_le_pow_right (by decide) (by decide)).trans (Nat.le_mul_of_pos_right _ h)
  unfold fraction
  rw [Nat.mul_left_comm, units_roundBits_two_mul hlarge, pow_succ', Nat.mul_div_mul_left _ _ (by decide)]

theorem druidThetaFromBound_eq {thetaLong : Int64} (h : 0 < thetaLong) :
    druidThetaFromBound (druidThetaBound thetaLong) = fraction thetaLong.toNatClampNeg 63 := by
  have hlt := ThetaSketch.toNat_toUInt64_lt h
  have hsame := ThetaSketch.toNat_toUInt64 h
  have hnat : thetaLong.toNatClampNeg = thetaLong.toUInt64.toNat := by
    rw [Int64.toNatClampNeg, ← hsame]
    rfl
  have hpos : 0 < thetaLong.toUInt64.toNat := by
    rw [Int64.lt_iff_toInt_lt, Int64.toInt_zero] at h
    omega
  rw [hnat, ← fraction_two_mul hpos, druidThetaFromBound, druidThetaBound]
  congr 1
  simp only [UInt64.toNat_shiftLeft, UInt64.reduceToNat, Nat.shiftLeft_eq, Nat.reduceMod, Nat.reducePow]
  omega

theorem rank_druidThetaFromBound (b : UInt64) : (druidThetaFromBound b).rank = some (F64.roundBits (fractionUnits b.toNat 64) : ℤ) := by
  rw [druidThetaFromBound, fraction_eq b.toNat_lt.le]
  rfl

theorem druidThetaFromBound_mono {a b : UInt64} (h : a ≤ b) : F64.roundBits (fractionUnits a.toNat 64) ≤ F64.roundBits (fractionUnits b.toNat 64) :=
  F64.roundBits_mono (fractionUnits_mono 64 (UInt64.le_iff_toNat_le.1 h))

/-- The lower threshold belongs to the lower bound. -/
theorem minTheta_bounds (a b : UInt64) :
    ThetaSketch.minTheta (druidThetaFromBound a) (druidThetaFromBound b) = druidThetaFromBound (min a b) := by
  have hlt : F64.lt (druidThetaFromBound b) (druidThetaFromBound a) =
      decide (F64.roundBits (fractionUnits b.toNat 64) < F64.roundBits (fractionUnits a.toNat 64)) := by
    unfold F64.lt
    rw [rank_druidThetaFromBound, rank_druidThetaFromBound]
    simp
  unfold ThetaSketch.minTheta
  rw [hlt]
  rcases le_total a b with hle | hle
  · have hmono := druidThetaFromBound_mono hle
    rw [min_eq_left hle, if_neg (by simpa using hmono)]
  · have hmono := druidThetaFromBound_mono hle
    rw [min_eq_right hle]
    split_ifs with hbelow
    · rfl
    · have hsame : F64.roundBits (fractionUnits a.toNat 64) = F64.roundBits (fractionUnits b.toNat 64) :=
        le_antisymm (by simpa using hbelow) hmono
      simp only [druidThetaFromBound, fraction_eq a.toNat_lt.le, fraction_eq b.toNat_lt.le, hsame]

/-- A positive bound has a threshold that is not out of range. -/
theorem checkTheta_bound {b : UInt64} (h : 0 < b) : ThetaSketch.checkTheta (druidThetaFromBound b) = .ok () := by
  have hpos : 0 < F64.roundBits (fractionUnits b.toNat 64) :=
    Nat.pos_of_ne_zero fun hzero => (fractionUnits_pos (UInt64.lt_iff_toNat_lt.1 h)).ne' (F64.roundBits_eq_zero.1 hzero)
  have hle := roundBits_fraction_lt b.toNat_lt.le
  refine if_neg ?_
  rw [not_or, not_or]
  refine ⟨?_, ?_, ?_⟩
  · rw [druidThetaFromBound, fraction_eq b.toNat_lt.le]
    simp [F64.isFinite]
  · unfold F64.le
    rw [rank_druidThetaFromBound]
    simpa [F64.zero, F64.rank, F64.signed] using hpos.ne'
  · unfold F64.lt
    rw [rank_druidThetaFromBound, ofInt_one_eq]
    simpa [F64.rank, F64.signed] using hle

namespace ThetaSketch

variable {s l r : ThetaSketch}

/-! ## Fields that agree -/

/-- A sketch of Druid with a positive bound above its hashes, the `theta` of that bound,
room for its hashes, and a seed if it has any. -/
structure Coherent (s : ThetaSketch) : Prop where
  origin : s.druidOrigin = true
  theta : s.theta = druidThetaFromBound s.thetaBound
  positive : 0 < s.thetaBound
  below : ∀ h ∈ s.hashes, h < s.thetaBound
  card : s.hashes.card ≤ s.maxSize
  size : s.maxSize < 2 ^ 32
  seed : s.hashes.Nonempty → s.druidSeedHash ≠ none

/-! ## Reading what was written -/

theorem checkAscending_unordered (prev : Option UInt64) (raw : UInt64) : checkAscending false prev raw = .ok () := by
  cases prev with
  | none => rfl
  | some p => simp [checkAscending]

variable {data : Bytes} {count : ℕ} {decodeHash : UInt64 → Except DruidCompactFault UInt64} {pos : ℕ}

/-- Distinct hashes are read as they were written. -/
theorem readRetainedLoop_written (words : List UInt64)
    {prev : Option UInt64} {hashes : Finset UInt64} (hat : At data pos (words.flatMap fun h => leBytes 8 h.toNat)) (hnodup : words.Nodup)
    (hfresh : ∀ h ∈ words, h ∉ hashes) (hdecode : ∀ h ∈ words, decodeHash h = .ok h) :
    readRetainedLoop data count false decodeHash words.length pos prev hashes = .ok (hashes ∪ words.toFinset) := by
  induction words generalizing pos prev hashes with
  | nil => exact congrArg Except.ok (Finset.union_empty hashes).symm
  | cons word words ih =>
    rw [flatMap_cons, At.append_iff, length_leBytes] at hat
    rw [nodup_cons] at hnodup
    rw [forall_mem_cons] at hfresh hdecode
    have hlen := hat.1.length_le (ne_nil_of_length_pos (by rw [length_leBytes]; decide))
    have hword : readU64 data pos = .ok word := by
      rw [length_leBytes] at hlen
      rw [readU64, if_neg (by omega), leAt_of_at hat.1, Nat.mod_eq_of_lt (show _ < 256 ^ 8 from word.toNat_lt), UInt64.ofNat_toNat]
    have hnew : checkFresh hashes word word count = .ok () := if_neg hfresh.1
    rw [length_cons, readRetainedLoop]
    simp only [hword, checkAscending_unordered, hdecode.1, hnew, ok_bind]
    rw [ih hat.2 hnodup.2 _ hdecode.2, toFinset_cons, Finset.insert_union, Finset.union_insert]
    intro h hmem
    rw [Finset.mem_insert, not_or]
    exact ⟨fun heq => hnodup.1 (heq ▸ hmem), hfresh.2 h hmem⟩

theorem readRetainedHashes_written (hashes : Finset UInt64)
    (hat : At data pos (hashes.sort.flatMap fun h => leBytes 8 h.toNat)) (hdecode : ∀ h ∈ hashes, decodeHash h = .ok h) :
    readRetainedHashes data pos hashes.card false decodeHash = .ok hashes := by
  have hloop : readRetainedLoop data hashes.card false decodeHash hashes.sort.length pos none ∅ = .ok (∅ ∪ hashes.sort.toFinset) :=
    readRetainedLoop_written hashes.sort hat (Finset.sort_nodup _ _) (fun h _ => Finset.notMem_empty h) fun h hmem =>
      hdecode h ((Finset.mem_sort _).1 hmem)
  rw [Finset.length_sort, Finset.empty_union, Finset.sort_toFinset] at hloop
  unfold readRetainedHashes
  rw [hloop, ok_bind]
  exact if_neg (not_not.2 rfl)

theorem readOrigin_written (h : s.druidOrigin = true) (rest : Bytes) :
    readOrigin (s.origin ++ rest) = .ok ⟨true, s.druidSeedHash, s.thetaBound, s.origin.length⟩ := by
  have hbound : UInt64.ofNat (s.thetaBound.toNat % 256 ^ 8) = s.thetaBound := by
    rw [Nat.mod_eq_of_lt (show _ < 256 ^ 8 from s.thetaBound.toNat_lt), UInt64.ofNat_toNat]
  have hat : At (s.origin ++ rest) 0 s.origin := prefix_append _ _
  unfold origin at hat ⊢
  rw [if_pos h] at hat ⊢
  cases hseed : s.druidSeedHash with
  | none =>
    rw [hseed] at hat
    rw [At.cons_iff, At.cons_iff] at hat
    have hlen : ¬ (versionDruid :: originFlagDruid :: leBytes 8 s.thetaBound.toNat ++ rest).length < 10 := by simp
    have hflags : (versionDruid :: originFlagDruid :: leBytes 8 s.thetaBound.toNat ++ rest).getD 1 0 = originFlagDruid := rfl
    rw [cons_append] at *
    rw [readOrigin, if_neg (by decide), if_pos rfl, if_neg hlen]
    simp only [hflags, leAt_of_at hat.2.2, hbound]
    rw [if_neg (by decide), if_neg (by decide)]
    simp
  | some seed =>
    have hseedHash : UInt16.ofNat (seed.toNat % 256 ^ 2) = seed := by
      rw [Nat.mod_eq_of_lt (show _ < 256 ^ 2 from seed.toNat_lt), UInt16.ofNat_toNat]
    rw [hseed] at hat
    rw [At.cons_iff, At.cons_iff, At.append_iff, length_leBytes] at hat
    have hlen : ¬ (versionDruid :: (originFlagDruid ||| originFlagSeedHash) :: (leBytes 8 s.thetaBound.toNat ++
      leBytes 2 seed.toNat) ++ rest).length < 12 := by
      simp only [cons_append, length_cons, length_append, length_leBytes]
      omega
    have hflags : (versionDruid :: (originFlagDruid ||| originFlagSeedHash) :: (leBytes 8 s.thetaBound.toNat ++
      leBytes 2 seed.toNat) ++ rest).getD 1 0 =
        originFlagDruid ||| originFlagSeedHash := rfl
    rw [cons_append] at *
    rw [readOrigin, if_neg (by decide), if_pos rfl, if_neg (by omega)]
    simp only [hflags, leAt_of_at hat.2.2.1, leAt_of_at hat.2.2.2, hbound, hseedHash]
    rw [if_neg (by decide), if_pos (by decide), if_neg hlen]
    simp

theorem leAt_size {n : ℕ} (hat : At data pos (leBytes 4 (min n (2 ^ 32 - 1)))) (h : n < 2 ^ 32) : leAt data 4 pos = n := by
  rw [leAt_of_at hat, min_eq_left (by omega)]
  exact Nat.mod_eq_of_lt h

/-- Fields that agree pass every check. -/
theorem Coherent.round_trip (h : Coherent s) : deserialize s.serialize = .ok s := by
  have hat : At s.serialize 0 s.serialize := prefix_rfl
  have hread : readOrigin s.serialize = .ok ⟨true, s.druidSeedHash, s.thetaBound, s.origin.length⟩ := by
    unfold serialize
    rw [append_assoc, append_assoc, append_assoc]
    exact readOrigin_written h.origin _
  have hlen : s.serialize.length = s.origin.length + 8 + 4 + 4 + s.hashes.card * 8 := by
    unfold serialize
    have hwords : ∀ words : List UInt64, (words.flatMap fun h => leBytes 8 h.toNat).length = words.length * 8 := by
      intro words
      simp
    simp only [length_append, length_leBytes, hwords, Finset.length_sort]
  have hcard := h.card.trans_lt h.size
  nth_rewrite 2 [serialize] at hat
  rw [At.append_iff, At.append_iff, At.append_iff, At.append_iff] at hat
  obtain ⟨⟨⟨⟨-, htheta⟩, hsize⟩, hcount⟩, hwords⟩ := hat
  simp only [length_append, length_leBytes, Nat.zero_add] at htheta hsize hcount hwords
  have hthetaBits : F64.ofBits (leAt s.serialize 8 s.origin.length) = s.theta := by
    rw [leAt_of_at htheta, Nat.mod_eq_of_lt (show _ < 256 ^ 8 from s.theta.toBits_lt), F64.ofBits_toBits]
  have hcoherent : coherentTheta ⟨true, s.druidSeedHash, s.thetaBound, s.origin.length⟩ s.theta = .ok s.theta := by
    unfold coherentTheta
    rw [if_pos rfl, if_neg h.positive.ne', h.theta, if_neg (not_not.2 rfl)]
  have hretained : checkRetained ⟨true, s.druidSeedHash, s.thetaBound, s.origin.length⟩ s.maxSize s.hashes.card
      (s.origin.length + 8 + 4 + 4 + s.hashes.card * 8) s.serialize.length = .ok () := by
    unfold checkRetained
    rw [if_neg (not_lt.2 h.card), if_neg (fun hmissing => h.seed (Finset.card_pos.1 hmissing.2.1) hmissing.2.2), if_neg (by omega)]
  have hbelow : ∀ hash ∈ s.hashes, checkBelow ⟨true, s.druidSeedHash, s.thetaBound, s.origin.length⟩ hash = .ok hash := by
    intro hash hmem
    exact if_neg fun habove => not_lt.2 habove.2 (h.below hash hmem)
  have hhashes := readRetainedHashes_written s.hashes hwords hbelow
  have hcheck : checkTheta s.theta = .ok () := h.theta ▸ checkTheta_bound h.positive
  unfold deserialize
  simp only [hread, ok_bind]
  rw [checkLength, if_neg (by omega)]
  simp only [ok_bind, hthetaBits, leAt_size hsize h.size, leAt_size hcount hcard, hcoherent, hcheck, hretained, hhashes, Except.mapError]
  rw [← h.origin]

/-! ## Sketches that can come up -/

/-- What images and empty rows become by set operations. -/
inductive Reachable : ThetaSketch → Prop where
  | decoded {data : Bytes} {s : ThetaSketch} (h : fromDruidCompact data = .ok s) : Reachable s
  | empty : Reachable emptyDruidOrigin
  | apply (op : Operation) {l r s : ThetaSketch} (hl : Reachable l) (hr : Reachable r) (h : op.apply l r = .ok s) : Reachable s

/-- Fields that agree, with room or without. -/
structure Sound (s : ThetaSketch) : Prop where
  origin : s.druidOrigin = true
  theta : s.theta = druidThetaFromBound s.thetaBound
  positive : 0 < s.thetaBound
  hashes : ∀ h ∈ s.hashes, 0 < h ∧ h < s.thetaBound
  budget : s.maxSize ≤ dsMaxRetained
  seed : s.hashes.Nonempty → s.druidSeedHash ≠ none

theorem Sound.coherent (h : Sound s) (hcard : s.hashes.card ≤ s.maxSize) : Coherent s where
  origin := h.origin
  theta := h.theta
  positive := h.positive
  below hash hmem := (h.hashes hash hmem).2
  card := hcard
  size := h.budget.trans_lt (by decide)
  seed := h.seed

theorem sound_decoded (hok : fromDruidCompact data = .ok s) : Sound s ∧ s.hashes.card ≤ s.maxSize := by
  obtain ⟨p, -, hcheck, hbuilt⟩ := built_fromDruidCompact hok
  obtain ⟨thetaLong, hpos, hbound, htheta⟩ := hbuilt.threshold
  have hnominal : nominal p.lgNomLongs ≤ dsMaxRetained := by
    unfold checkPreamble at hcheck
    split_ifs at hcheck with _ _ hlg
    have hle := UInt8.le_iff_toNat_le.1 (UInt8.not_lt.1 hlg)
    unfold nominal
    split_ifs
    · decide
    · rw [Nat.one_shiftLeft]
      exact Nat.pow_le_pow_right (by decide) hle
  refine ⟨⟨hbuilt.origin, ?_, ?_, hbuilt.hashes, ?_, fun _ => ?_⟩, ?_⟩
  · rw [hbound, druidThetaFromBound_eq hpos]
    rcases htheta with hfraction | ⟨rfl, hone⟩
    · exact hfraction
    · rw [hone, ← fraction_full (n := 2 ^ 64 - 2) le_rfl (by decide)]
      exact fraction_two_mul (t := maxThetaLong.toNatClampNeg) (by decide)
  · rw [hbound]
    have hsame := toNat_toUInt64 hpos
    have hlt := toNat_toUInt64_lt hpos
    refine shiftLeft_pos (fun hzero => ?_) hlt
    rw [hzero] at hsame
    rw [Int64.lt_iff_toInt_lt, ← hsame] at hpos
    exact absurd hpos (by decide)
  · rw [hbuilt.budget]
    exact max_le hnominal hbuilt.retained
  · rw [hbuilt.seed]
    exact Option.some_ne_none _
  · rw [hbuilt.budget]
    exact le_max_right _ _

theorem sound_empty : Sound emptyDruidOrigin where
  origin := rfl
  theta := (fraction_full (n := maxHash.toNat) (by decide) (by decide)).symm
  positive := by decide
  hashes h hmem := absurd hmem (Finset.notMem_empty h)
  budget := by decide
  seed hne := absurd hne Finset.not_nonempty_empty

/-! ## Set operations -/

/-- A result that has hashes has a seed, as the operand they come from does. -/
theorem resolvedIdentity_ok (hl : Sound l) (hr : Sound r) {op : String} {identity : Bool × Option UInt16}
    (hok : l.resolvedIdentity r op = .ok identity) : identity.1 = true ∧ (l.hashes.Nonempty ∨ r.hashes.Nonempty → identity.2 ≠ none) := by
  obtain ⟨origin, horigin, hok⟩ := bind_eq_ok.1 hok
  obtain ⟨seed, hseed, hok⟩ := bind_eq_ok.1 hok
  unfold resolvedOrigin at horigin
  rw [if_pos (hl.origin.trans hr.origin.symm), hl.origin] at horigin
  obtain rfl := Except.ok.inj horigin
  obtain rfl := Except.ok.inj hok
  refine ⟨rfl, fun hne => ?_⟩
  have hor : l.hashes.Nonempty → l.druidSeedHash.or r.druidSeedHash ≠ none := fun hne hnone => hl.seed hne (Option.or_eq_none_iff.1 hnone).1
  unfold resolvedSeed at hseed
  split_ifs at hseed with hleft hright
  · cases hseed
    exact hr.seed (Finset.nonempty_iff_ne_empty.2 hleft.2)
  · cases hseed
    exact hor (hne.resolve_right (Finset.not_nonempty_iff_eq_empty.2 hright))
  · have hlne : l.hashes.Nonempty := Finset.nonempty_iff_ne_empty.2 fun hempty => hleft ⟨hempty, hright⟩
    split at hseed
    · split_ifs at hseed
      cases hseed
      exact Option.some_ne_none _
    · cases hseed
      exact hor hlne

/-- A threshold that was agreed on is coherent. -/
theorem resolvedThreshold_coherent (hl : Sound l) (hr : Sound r) :
    (l.resolvedThreshold r).1 = druidThetaFromBound (l.resolvedThreshold r).2 ∧ 0 < (l.resolvedThreshold r).2 := by
  unfold resolvedThreshold
  split_ifs
  · exact ⟨sound_empty.theta, sound_empty.positive⟩
  · exact ⟨hr.theta, hr.positive⟩
  · exact ⟨hl.theta, hl.positive⟩
  · dsimp only
    rw [hl.theta, hr.theta]
    exact ⟨minTheta_bounds _ _, lt_min hl.positive hr.positive⟩

theorem Sound.trimLoop (h : Sound s) (turns : ℕ) : Sound (trimLoop turns s) := by
  induction turns generalizing s with
  | zero => exact h
  | succ turns ih =>
    unfold ThetaSketch.trimLoop
    split_ifs with hlarge
    · have hnonempty := Finset.card_pos.1 (Nat.zero_lt_of_lt hlarge)
      refine ih ⟨h.origin, rfl, (h.hashes _ (s.hashes.max'_mem hnonempty)).1, fun hash hmem => ?_, h.budget, fun _ => h.seed hnonempty⟩
      obtain ⟨hne, hmem⟩ := Finset.mem_erase.1 hmem
      exact ⟨(h.hashes hash hmem).1, lt_of_le_of_ne (s.hashes.le_max' hash hmem) hne⟩
    · exact h

theorem Sound.trim (h : Sound s) : Sound s.trim ∧ s.trim.hashes.card ≤ s.trim.maxSize := by
  have hsample : IsSample 0 s.hashes s.thetaBound s.hashes s.thetaBound := IsSample.self fun hash hmem => (h.hashes hash hmem).2
  refine ⟨h.trimLoop _, ?_⟩
  rw [ThetaSketch.trim, (trimLoop_fields _).1]
  exact (trimLoop_spec hsample (Nat.zero_le _) _ (Nat.le_add_left _ _)).2

/-- What an operation keeps of its operands, below the threshold. -/
theorem sound_kept (hl : Sound l) (hr : Sound r) {op : String} {identity : Bool × Option UInt16} (hidentity : l.resolvedIdentity r op = .ok identity)
    {size : ℕ} (hsize : size ≤ dsMaxRetained) {kept : Finset UInt64} (hkept : kept ⊆ l.hashes ∪ r.hashes)
    (hbelow : ∀ hash ∈ kept, hash < (l.resolvedThreshold r).2) :
    Sound ⟨(l.resolvedThreshold r).1, (l.resolvedThreshold r).2, size, kept, identity.1, identity.2⟩ := by
  obtain ⟨horigin, hseed⟩ := resolvedIdentity_ok hl hr hidentity
  obtain ⟨htheta, hpos⟩ := resolvedThreshold_coherent hl hr
  refine ⟨horigin, htheta, hpos, fun hash hmem => ⟨?_, hbelow hash hmem⟩, hsize, fun hne => hseed (Finset.union_nonempty.1 (hne.mono hkept))⟩
  rcases Finset.mem_union.1 (hkept hmem) with hmem | hmem
  · exact (hl.hashes hash hmem).1
  · exact (hr.hashes hash hmem).1

theorem sound_apply (op : Operation) (hl : Sound l) (hr : Sound r) (hlcard : l.hashes.card ≤ l.maxSize) (hok : op.apply l r = .ok s) :
    Sound s ∧ s.hashes.card ≤ s.maxSize := by
  have hmax : max l.maxSize r.maxSize ≤ dsMaxRetained := max_le hl.budget hr.budget
  have hbelow : ∀ {size : ℕ} {hashes : Finset UInt64} {seed : Option UInt16} {hash : UInt64},
      belowThreshold ⟨(l.resolvedThreshold r).1, (l.resolvedThreshold r).2, size, hashes, true, seed⟩ hash = true → hash < (l.resolvedThreshold r).2 :=
    fun h => of_decide_eq_true h
  cases op with
  | union =>
    obtain ⟨⟨origin, seed⟩, hidentity, hok⟩ := bind_eq_ok.1 hok
    obtain rfl := (resolvedIdentity_ok hl hr hidentity).1
    obtain rfl := Except.ok.inj hok
    exact (sound_kept hl hr hidentity hmax (Finset.filter_subset _ _) fun hash hmem => hbelow (Finset.mem_filter.1 hmem).2).trim
  | intersect =>
    obtain ⟨⟨origin, seed⟩, hidentity, hok⟩ := bind_eq_ok.1 hok
    obtain rfl := (resolvedIdentity_ok hl hr hidentity).1
    obtain rfl := Except.ok.inj hok
    refine ⟨sound_kept hl hr hidentity hmax ((Finset.filter_subset _ _).trans Finset.subset_union_left)
      fun hash hmem => hbelow (Finset.mem_filter.1 hmem).2.2, ?_⟩
    exact (Finset.card_le_card (Finset.filter_subset _ _)).trans (hlcard.trans (le_max_left _ _))
  | difference =>
    obtain ⟨⟨origin, seed⟩, hidentity, hok⟩ := bind_eq_ok.1 hok
    obtain rfl := (resolvedIdentity_ok hl hr hidentity).1
    obtain rfl := Except.ok.inj hok
    refine ⟨sound_kept hl hr hidentity hl.budget ((Finset.filter_subset _ _).trans Finset.subset_union_left)
      fun hash hmem => hbelow (Finset.mem_filter.1 hmem).2.2, ?_⟩
    exact (Finset.card_le_card (Finset.filter_subset _ _)).trans hlcard

theorem Reachable.sound (h : Reachable s) : Sound s ∧ s.hashes.card ≤ s.maxSize := by
  induction h with
  | decoded h => exact sound_decoded h
  | empty => exact ⟨sound_empty, Nat.zero_le _⟩
  | apply op _ _ h ihl ihr => exact sound_apply op ihl.1 ihr.1 ihl.2 h

/-! ## What is read -/

/-- The hashes of an image. -/
def words (data : Bytes) (pos count : ℕ) : List UInt64 := (List.range count).map fun i => .ofNat (leAt data 8 (pos + 8 * i))

theorem words_succ (data : Bytes) (pos count : ℕ) : words data pos (count + 1) = .ofNat (leAt data 8 pos) :: words data (pos + 8) count := by
  unfold words
  rw [range_succ_eq_map, map_cons, map_map, Nat.mul_zero, Nat.add_zero]
  congr 1
  refine map_congr_left fun i _ => ?_
  simp only [Function.comp_apply, Nat.succ_eq_add_one]
  congr 2
  omega

/-- What is read is all of the image's hashes, which are distinct. -/
theorem readRetainedLoop_words {ordered : Bool}
    (hdecode : ∀ raw stored, decodeHash raw = .ok stored → stored = raw) {remaining : ℕ} {prev : Option UInt64} {hashes result : Finset UInt64}
    (hok : readRetainedLoop data count ordered decodeHash remaining pos prev hashes = .ok result) :
    (words data pos remaining).Nodup ∧ (∀ h ∈ words data pos remaining, h ∉ hashes) ∧ result = hashes ∪ (words data pos remaining).toFinset := by
  induction remaining generalizing pos prev hashes with
  | zero =>
    cases hok
    exact ⟨nodup_nil, nofun, (Finset.union_empty _).symm⟩
  | succ remaining ih =>
    obtain ⟨raw, hraw, hok⟩ := bind_eq_ok.1 hok
    obtain ⟨_, -, hok⟩ := bind_eq_ok.1 hok
    obtain ⟨stored, hstored, hok⟩ := bind_eq_ok.1 hok
    obtain ⟨_, hfresh, hok⟩ := bind_eq_ok.1 hok
    obtain rfl := hdecode raw stored hstored
    obtain ⟨hnodup, hdisjoint, hresult⟩ := ih hok
    unfold readU64 at hraw
    split_ifs at hraw
    rw [words_succ, Except.ok.inj hraw, nodup_cons, forall_mem_cons, toFinset_cons]
    refine ⟨⟨fun hmem => hdisjoint _ hmem (Finset.mem_insert_self _ _), hnodup⟩,
      ⟨checkFresh_ok hfresh, fun h hmem => fun hold => hdisjoint h hmem (Finset.mem_insert_of_mem hold)⟩, ?_⟩
    rw [hresult, Finset.insert_union, Finset.union_insert]

variable {o : Origin}

theorem readOrigin_druid (hversion : data.head? = some versionDruid) (hok : readOrigin data = .ok o) :
    o.druidOrigin = true := by
  unfold readOrigin at hok
  split at hok
  · cases hversion
  · obtain rfl := Option.some.inj hversion
    rw [if_neg (by decide), if_pos rfl] at hok
    dsimp only at hok
    split_ifs at hok <;> cases hok <;> rfl

theorem coherentTheta_ok (ho : o.druidOrigin = true) {wireTheta theta : F64} (hok : coherentTheta o wireTheta = .ok theta) :
    theta = druidThetaFromBound o.thetaBound ∧ 0 < o.thetaBound := by
  unfold coherentTheta at hok
  split_ifs at hok with hzero hsame
  refine ⟨(Except.ok.inj hok).symm, UInt64.lt_iff_toNat_lt.2 (Nat.pos_of_ne_zero fun h => hzero (UInt64.toNat_inj.1 h))⟩

theorem checkRetained_ok (ho : o.druidOrigin = true) {maxSize expected got : ℕ} {u : Unit}
    (hok : checkRetained o maxSize count expected got = .ok u) : count ≤ maxSize ∧ (0 < count → o.druidSeedHash ≠ none) := by
  unfold checkRetained at hok
  split_ifs at hok with hbudget hseed
  exact ⟨not_lt.1 hbudget, fun hpos hnone => hseed ⟨ho, hpos, hnone⟩⟩

theorem checkBelow_ok {raw stored : UInt64} (hok : checkBelow o raw = .ok stored) : stored = raw := by
  unfold checkBelow at hok
  split_ifs at hok
  exact (Except.ok.inj hok).symm

theorem checkBelow_lt (ho : o.druidOrigin = true) {raw stored : UInt64} (hok : checkBelow o raw = .ok stored) : stored < o.thetaBound := by
  unfold checkBelow at hok
  split_ifs at hok with habove
  obtain rfl := Except.ok.inj hok
  exact not_le.1 fun hle => habove ⟨ho, hle⟩

/-- The hashes of a sketch are those of the image it was read from, which are distinct. -/
def ReadFrom (data : Bytes) (s : ThetaSketch) : Prop :=
  ∃ pos count, (words data pos count).Nodup ∧ s.hashes = (words data pos count).toFinset

/-- What is read as a sketch of Druid has fields that agree. -/
theorem coherent_deserialize (hversion : data.head? = some versionDruid) (hok : deserialize data = .ok s) :
    Coherent s ∧ ReadFrom data s := by
  obtain ⟨o, horigin, hok⟩ := bind_eq_ok.1 hok
  obtain ⟨_, -, hok⟩ := bind_eq_ok.1 hok
  obtain ⟨theta, htheta, hok⟩ := bind_eq_ok.1 hok
  obtain ⟨_, -, hok⟩ := bind_eq_ok.1 hok
  obtain ⟨_, hretained, hok⟩ := bind_eq_ok.1 hok
  obtain ⟨hashes, hhashes, hok⟩ := bind_eq_ok.1 hok
  obtain rfl := Except.ok.inj hok
  rw [mapError_eq_ok] at hhashes
  have ho := readOrigin_druid hversion horigin
  obtain ⟨htheta, hpos⟩ := coherentTheta_ok ho htheta
  obtain ⟨hcount, hseed⟩ := checkRetained_ok ho hretained
  obtain ⟨hbelow, hcard⟩ := readRetainedHashes_ok (fun _ _ => checkBelow_lt ho) hhashes
  refine ⟨⟨ho, htheta, hpos, hbelow, hcard.trans_le hcount, leAt_lt data 4 _, fun hne => hseed (hcard ▸ Finset.card_pos.2 hne)⟩, ?_⟩
  obtain ⟨read, hread, hchecked⟩ := bind_eq_ok.1 hhashes
  obtain ⟨hnodup, -, hresult⟩ := readRetainedLoop_words (fun _ _ => checkBelow_ok) hread
  refine ⟨_, _, hnodup, ?_⟩
  unfold checkCount at hchecked
  split_ifs at hchecked
  rw [← Except.ok.inj hchecked, hresult, Finset.empty_union]

/-- A sketch that set operations make of images is read back as it was written, and
whatever is read as a sketch of Druid has fields that agree. -/
theorem wire_round_trip :
    (∀ s, Reachable s → deserialize s.serialize = .ok s) ∧
    ∀ data s, data.head? = some versionDruid → deserialize data = .ok s → Coherent s ∧ ReadFrom data s := by
  refine ⟨fun s hs => ?_, fun data s => coherent_deserialize⟩
  obtain ⟨hsound, hcard⟩ := hs.sound
  exact (hsound.coherent hcard).round_trip

/-- An image of one hash, as older serializers write it. -/
def singleItem : Bytes := [1, 3, 3, 12, 0, 0x1A, 0x1E, 0x93, 2, 0, 0, 0, 0, 0, 0, 0]

def single : ThetaSketch := ⟨.ofInt 1, druidThetaBound maxThetaLong, defaultMaxSize, {4}, true, some 0x931E⟩

theorem fromDruidCompact_singleItem : fromDruidCompact singleItem = .ok single := rfl

theorem single_round_trip : deserialize single.serialize = .ok single ∧ Coherent single ∧ ReadFrom single.serialize single := by
  have hread := wire_round_trip.1 single (.decoded fromDruidCompact_singleItem)
  exact ⟨hread, wire_round_trip.2 _ _ rfl hread⟩

end ThetaSketch

end FerroDruid.Sketches
