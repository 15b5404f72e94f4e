import FerroDruid.Sketches.Theta
/-!
# What the decoder accepts

A decoded sketch is of the hash space and the seed of its image, has its hashes
below its bound, and has room for them.
-/

namespace FerroDruid.Sketches

open Lib

namespace ThetaSketch

variable {k : ℕ} {seed : UInt16} {s : ThetaSketch}

/-! ## Retained hashes -/

variable {hashes : Finset UInt64} {count : ℕ}

theorem checkFresh_ok {stored raw : UInt64} {u : Unit} (h : checkFresh hashes stored raw count = .ok u) :
    stored ∉ hashes := by
  unfold checkFresh at h
  split_ifs at h with hmem
  exact hmem

variable {data : Bytes}

/-- The loop stores what `decodeHash` returns, a hash in each turn. -/
theorem readRetainedLoop_ok {P : UInt64 → Prop} {ordered : Bool} {decodeHash : UInt64 → Except DruidCompactFault UInt64}
    (hdecode : ∀ raw stored, decodeHash raw = .ok stored → P stored) {remaining pos : ℕ} {prev : Option UInt64}
    {result : Finset UInt64} (hP : ∀ h ∈ hashes, P h)
    (hok : readRetainedLoop data count ordered decodeHash remaining pos prev hashes = .ok result) :
    (∀ h ∈ result, P h) ∧ result.card = hashes.card + remaining := by
  induction remaining generalizing pos prev hashes with
  | zero =>
    cases hok
    exact ⟨hP, rfl⟩
  | succ remaining ih =>
    obtain ⟨raw, -, hok⟩ := bind_eq_ok.1 hok
    obtain ⟨_, -, hok⟩ := bind_eq_ok.1 hok
    obtain ⟨stored, hstored, hok⟩ := bind_eq_ok.1 hok
    obtain ⟨_, hfresh, hok⟩ := bind_eq_ok.1 hok
    obtain ⟨hresult, hcard⟩ := ih (Finset.forall_mem_insert _ _ _ |>.2 ⟨hdecode raw stored hstored, hP⟩) hok
    rw [Finset.card_insert_of_notMem (checkFresh_ok hfresh)] at hcard
    exact ⟨hresult, by omega⟩

theorem readRetainedHashes_ok {P : UInt64 → Prop} {pos : ℕ} {ordered : Bool}
    {decodeHash : UInt64 → Except DruidCompactFault UInt64} (hdecode : ∀ raw stored, decodeHash raw = .ok stored → P stored)
    (hok : readRetainedHashes data pos count ordered decodeHash = .ok hashes) : (∀ h ∈ hashes, P h) ∧ hashes.card = count := by
  obtain ⟨read, hread, hok⟩ := bind_eq_ok.1 hok
  obtain ⟨hP, hcard⟩ := readRetainedLoop_ok hdecode (by simp) hread
  unfold checkCount at hok
  split_ifs at hok
  cases hok
  exact ⟨hP, by simpa using hcard⟩

/-- A positive number is the same without a sign. -/
theorem toNat_toUInt64 {t : Int64} (h : 0 < t) : (t.toUInt64.toNat : ℤ) = t.toInt := by
  rw [Int64.lt_iff_toInt_lt] at h
  have hint : t.toInt = t.toBitVec.toInt := rfl
  have hcond := BitVec.toInt_eq_toNat_cond t.toBitVec
  have hnat : t.toUInt64.toNat = t.toBitVec.toNat := rfl
  have hzero : (0 : Int64).toInt = 0 := rfl
  split_ifs at hcond with hlt
  · omega
  · have := t.toBitVec.isLt
    omega

theorem toNat_toUInt64_lt {t : Int64} (h : 0 < t) : t.toUInt64.toNat < 2 ^ 63 := by
  have hsame := toNat_toUInt64 h
  have hlt := t.toInt_lt
  omega

theorem shiftLeft_lt {a b : UInt64} (h : a < b) (hb : b.toNat < 2 ^ 63) : a <<< 1 < b <<< 1 := by
  rw [UInt64.lt_iff_toNat_lt] at *
  simp only [UInt64.toNat_shiftLeft, UInt64.reduceToNat, Nat.shiftLeft_eq, Nat.reduceMod, Nat.reducePow]
  omega

theorem shiftLeft_pos {a : UInt64} (h : a ≠ 0) (hb : a.toNat < 2 ^ 63) : (0 : UInt64) < a <<< 1 := by
  rw [← UInt64.toNat_inj.ne] at h
  rw [UInt64.lt_iff_toNat_lt]
  simp only [UInt64.toNat_shiftLeft, UInt64.reduceToNat, Nat.shiftLeft_eq, Nat.reduceMod, Nat.reducePow] at *
  omega

/-- A hash below `thetaLong` is stored below the bound. -/
theorem rescaleDruidHash_ok {thetaLong : Int64} (hpos : 0 < thetaLong) {raw stored : UInt64} (hok : rescaleDruidHash raw thetaLong = .ok stored) :
    0 < stored ∧ stored < druidThetaBound thetaLong := by
  unfold rescaleDruidHash at hok
  split_ifs at hok with hrange
  cases hok
  rw [not_or, not_or, not_le, not_le] at hrange
  obtain ⟨hne, hlt, hbelow⟩ := hrange
  exact ⟨shiftLeft_pos hne (UInt64.lt_iff_toNat_lt.1 hlt), shiftLeft_lt hbelow (toNat_toUInt64_lt hpos)⟩

/-! ## Images -/

/-- What the three shapes of an image have in common. -/
structure Built (p : Preamble) (s : ThetaSketch) : Prop where
  origin : s.druidOrigin = true
  seed : s.druidSeedHash = some p.seedHash
  hashes : ∀ h ∈ s.hashes, 0 < h ∧ h < s.thetaBound
  budget : s.maxSize = max (nominal p.lgNomLongs) s.hashes.card
  retained : s.hashes.card ≤ dsMaxRetained
  threshold : ∃ thetaLong, 0 < thetaLong ∧ s.thetaBound = druidThetaBound thetaLong ∧
    (s.theta = fraction thetaLong.toNatClampNeg 63 ∨ thetaLong = maxThetaLong ∧ s.theta = .ofInt 1)

variable {p : Preamble}

theorem Built.below (h : Built p s) : ∀ hash ∈ s.hashes, hash < s.thetaBound := fun hash hmem => (h.hashes hash hmem).2

theorem built_decodeEmpty (hok : decodeEmpty data p = .ok s) : Built p s := by
  unfold decodeEmpty at hok
  split_ifs at hok
  cases hok
  exact ⟨rfl, rfl, by simp, by simp, Nat.zero_le _, maxThetaLong, by decide, rfl, .inr ⟨rfl, rfl⟩⟩

theorem built_decodeSingleItem (hok : decodeSingleItem data p = .ok s) : Built p s := by
  obtain ⟨_, -, hok⟩ := bind_eq_ok.1 hok
  obtain ⟨hashes, hread, hok⟩ := bind_eq_ok.1 hok
  cases hok
  obtain ⟨hhashes, hcard⟩ := readRetainedHashes_ok (fun _ _ => rescaleDruidHash_ok (by decide)) hread
  exact ⟨rfl, rfl, hhashes, by rw [hcard], by rw [hcard]; decide, maxThetaLong, by decide, rfl, .inr ⟨rfl, rfl⟩⟩

theorem checkHeader_ok {curCount hashesAt : ℕ} {thetaLong : Int64} {u : Unit}
    (hok : checkHeader data curCount thetaLong hashesAt = .ok u) : 0 < thetaLong ∧ curCount ≤ dsMaxRetained := by
  unfold checkHeader at hok
  split_ifs at hok with hpos hcount
  exact ⟨by simpa using hpos, not_lt.1 hcount⟩

theorem built_decodeGeneral (hok : decodeGeneral data p = .ok s) : Built p s := by
  obtain ⟨⟨curCount, thetaLong, hashesAt⟩, -, hok⟩ := bind_eq_ok.1 hok
  obtain ⟨_, hheader, hok⟩ := bind_eq_ok.1 hok
  obtain ⟨hashes, hread, hok⟩ := bind_eq_ok.1 hok
  cases hok
  obtain ⟨hpos, hcount⟩ := checkHeader_ok hheader
  obtain ⟨hhashes, hcard⟩ := readRetainedHashes_ok (fun _ _ => rescaleDruidHash_ok hpos) hread
  exact ⟨rfl, rfl, hhashes, by rw [hcard], by rwa [hcard], thetaLong, hpos, rfl, .inl rfl⟩

theorem built_fromDruidCompact (hok : fromDruidCompact data = .ok s) :
    ∃ p, readPreamble data = .ok p ∧ checkPreamble p = .ok () ∧ Built p s := by
  obtain ⟨p, hp, hok⟩ := bind_eq_ok.1 hok
  obtain ⟨_, hcheck, hok⟩ := bind_eq_ok.1 hok
  refine ⟨p, hp, hcheck, ?_⟩
  split_ifs at hok
  · exact built_decodeEmpty hok
  · exact built_decodeSingleItem hok
  · exact built_decodeGeneral hok

/-- A sketch of a column: the seed hash and the size are those of its image, and it
retains no more than the size. -/
def FromDruid (seed : UInt16) (k : ℕ) (s : ThetaSketch) : Prop :=
  ∃ data, fromDruidCompact data = .ok s ∧ leAt data 1 3 = k ∧ leAt data 2 6 = seed.toNat ∧ s.hashes.card ≤ 2 ^ k

/-- The budget of the sketches of a column. -/
def budget (k : ℕ) : ℕ := if k = 0 then 4096 else 2 ^ k

theorem readPreamble_ok (hok : readPreamble data = .ok p) :
    leAt data 1 3 = p.lgNomLongs.toNat ∧ leAt data 2 6 = p.seedHash.toNat := by
  unfold readPreamble at hok
  split at hok
  · rename_i b0 serVer family lgNomLongs b4 flags s0 s1 rest
    cases hok
    have h0 := s0.toNat_lt
    have h1 := s1.toNat_lt
    refine ⟨by simp [leAt, leNat], ?_⟩
    rw [UInt16.toNat_ofNat']
    simp only [leAt, leNat, List.drop_succ_cons, List.drop_zero, List.take_succ_cons, List.take_zero]
    omega
  · cases hok

/-- A sketch with its hashes below its bound, and the budget of its column. -/
structure Operand (seed : UInt16) (s : ThetaSketch) : Prop where
  origin : s.druidOrigin = true
  seeds : ∀ x ∈ s.druidSeedHash, x = seed
  below : ∀ h ∈ s.hashes, h < s.thetaBound
  card : s.hashes.card ≤ s.maxSize

theorem FromDruid.operand (h : FromDruid seed k s) : Operand seed s ∧ s.maxSize = budget k := by
  obtain ⟨data, hok, hk, hseed, hcard⟩ := h
  obtain ⟨p, hp, -, hbuilt⟩ := built_fromDruidCompact hok
  obtain ⟨hlg, hseedHash⟩ := readPreamble_ok hp
  have hnominal : nominal p.lgNomLongs = budget k := by
    have hzero : p.lgNomLongs = 0 ↔ k = 0 := by
      rw [← UInt8.toNat_inj, ← hlg, hk]
      rfl
    unfold nominal budget
    rw [← hlg, hk, Nat.one_shiftLeft]
    simp only [hzero]
    rfl
  have hle : s.hashes.card ≤ budget k := by
    unfold budget
    split_ifs with hzero
    · subst hzero
      omega
    · exact hcard
  have hmax : s.maxSize = budget k := by rw [hbuilt.budget, hnominal, max_eq_left hle]
  refine ⟨⟨hbuilt.origin, fun x hx => ?_, hbuilt.below, hmax ▸ hle⟩, hmax⟩
  rw [hbuilt.seed, Option.mem_some] at hx
  rw [← hx, ← UInt16.toNat_inj, ← hseedHash, hseed]

theorem operand_emptyDruidOrigin : Operand seed emptyDruidOrigin where
  origin := rfl
  seeds x hx := by cases hx
  below h hh := by cases hh
  card := Nat.zero_le _

end ThetaSketch

end FerroDruid.Sketches
