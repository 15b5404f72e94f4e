import FerroDruid.Lib.Gather
import FerroDruid.Sketches.HyperUnique
import Mathlib.Algebra.BigOperators.Fin
import Mathlib.Algebra.BigOperators.Group.Finset.Piecewise
import Mathlib.Data.List.GetD
import Mathlib.Order.CompletePartialOrder
import Mathlib.Order.Lattice.Nat
/-!
# One meaning for each hyperUnique image

Every array of registers has a dense and a sparse image, and both are decoded to it.
An image is accepted only with the count of the registers it encodes.
-/

namespace FerroDruid.Sketches.HyperUnique

open Lib List

section

variable {registers registers' : Registers} {p q : Fin REGISTER_PAGE_BYTES} {b : UInt8}

/-! ## Page bytes -/

/-- Both registers in one byte, the even one low. -/
def pageByte (registers : Registers) (p : Fin REGISTER_PAGE_BYTES) : UInt8 :=
  UInt8.ofNat (registers (evenRegister p) + 16 * registers (oddRegister p))

theorem toNat_pageByte (registers : Registers) (p : Fin REGISTER_PAGE_BYTES) :
    (pageByte registers p).toNat = registers (evenRegister p) + 16 * registers (oddRegister p) := by
  rw [pageByte, UInt8.toNat_ofNat']
  omega

theorem low_pageByte (registers : Registers) (p : Fin REGISTER_PAGE_BYTES) : low (pageByte registers p) = registers (evenRegister p) := by
  apply Fin.ext
  rw [low]
  simp only [toNat_low, toNat_pageByte]
  omega

theorem high_pageByte (registers : Registers) (p : Fin REGISTER_PAGE_BYTES) : high (pageByte registers p) = registers (oddRegister p) := by
  apply Fin.ext
  rw [high]
  simp only [toNat_high, toNat_pageByte]
  omega

theorem evenRegister_ne_oddRegister : evenRegister p ≠ oddRegister q := by
  intro h
  have := Fin.val_eq_of_eq h
  simp only [evenRegister, oddRegister] at this
  omega

theorem evenRegister_inj : evenRegister p = evenRegister q ↔ p = q := by
  simp [evenRegister, Fin.ext_iff]

theorem oddRegister_inj : oddRegister p = oddRegister q ↔ p = q := by
  simp [oddRegister, Fin.ext_iff]

/-- A register is one of the two of its page byte. -/
theorem register_cases (r : Fin NUM_REGISTERS) : ∃ p, r = evenRegister p ∨ r = oddRegister p := by
  have hr := r.isLt
  unfold NUM_REGISTERS at hr
  refine ⟨⟨r / 2, by unfold REGISTER_PAGE_BYTES; omega⟩, ?_⟩
  simp only [evenRegister, oddRegister, Fin.ext_iff]
  omega

/-- Registers are their page bytes. -/
theorem ext_pageByte (h : ∀ p, pageByte registers p = pageByte registers' p) : registers = registers' := by
  funext r
  obtain ⟨p, rfl | rfl⟩ := register_cases r
  · rw [← low_pageByte registers, h, low_pageByte]
  · rw [← high_pageByte registers, h, high_pageByte]

theorem pageByte_storeByte (registers : Registers) (p q : Fin REGISTER_PAGE_BYTES) (b : UInt8) :
    pageByte (storeByte registers p b) q = if q = p then b else pageByte registers q := by
  apply UInt8.toNat_inj.1
  rw [toNat_pageByte, storeByte, Function.update_of_ne evenRegister_ne_oddRegister]
  split_ifs with hqp
  · subst hqp
    rw [Function.update_self, Function.update_self, low, high]
    simp only [toNat_low, toNat_high]
    omega
  · rw [Function.update_of_ne (mt evenRegister_inj.1 hqp), Function.update_of_ne (mt oddRegister_inj.1 hqp),
      Function.update_of_ne evenRegister_ne_oddRegister.symm, toNat_pageByte]

theorem pageByte_noRegisters (p : Fin REGISTER_PAGE_BYTES) : pageByte noRegisters p = 0 := rfl

/-- Entries for each place of a list, in any order. -/
theorem pageByte_storeBytes (f : Fin REGISTER_PAGE_BYTES → UInt8) (ps : List (Fin REGISTER_PAGE_BYTES)) (registers :
    Registers) (q : Fin REGISTER_PAGE_BYTES) :
    pageByte (storeBytes registers (ps.map fun p => (p, f p))) q = if q ∈ ps then f q else pageByte registers q := by
  induction ps generalizing registers with
  | nil => rfl
  | cons p ps ih =>
    have hstep : storeBytes registers ((p :: ps).map fun p => (p, f p)) = storeBytes (storeByte registers p (f p)) (ps.map fun p => (p, f p)) := rfl
    rw [hstep, ih, pageByte_storeByte]
    by_cases hq : q ∈ ps
    · simp [hq]
    · by_cases hqp : q = p
      · simp [hqp]
      · simp [hq, hqp]

/-! ## Counts -/

/-- The registers of a byte that are not zero. -/
def nonZeroOf (b : UInt8) : ℕ := (if low b ≠ 0 then 1 else 0) + (if high b ≠ 0 then 1 else 0)

theorem nonZeroOf_pos (h : b ≠ 0) : 0 < nonZeroOf b := by
  by_contra hzero
  apply h
  have hall : ∀ b : UInt8, nonZeroOf b = 0 → b = 0 := UInt8.forall_of_fin (by decide +kernel)
  exact hall b (by omega)

theorem nonZero_update (registers : Registers) (r : Fin NUM_REGISTERS) (v : Nibble) :
    nonZero (Function.update registers r v) + (if registers r ≠ 0 then 1 else 0) = nonZero registers + if v ≠ 0 then 1 else 0 := by
  have hsum : ∀ registers : Registers, nonZero registers = ∑ r, if registers r ≠ 0 then 1 else 0 := fun registers => Finset.card_filter _ _
  have hother : ∀ f : Fin NUM_REGISTERS → ℕ, ∑ r, f r = f r + ∑ r' ∈ Finset.univ.erase r, f r' := fun f =>
    (Finset.add_sum_erase _ f (Finset.mem_univ r)).symm
  have hrest : ∑ r' ∈ Finset.univ.erase r, (if Function.update registers r v r' ≠ 0 then 1 else 0) =
      ∑ r' ∈ Finset.univ.erase r, if registers r' ≠ 0 then 1 else 0 := by
    refine Finset.sum_congr rfl fun r' hr' => ?_
    rw [Function.update_of_ne (Finset.ne_of_mem_erase hr')]
  rw [hsum, hsum, hother, hother fun r => if registers r ≠ 0 then 1 else 0, hrest, Function.update_self]
  omega

theorem nonZero_storeByte (registers : Registers) (p : Fin REGISTER_PAGE_BYTES) (b : UInt8) :
    nonZero (storeByte registers p b) + nonZeroOf (pageByte registers p) = nonZero registers + nonZeroOf b := by
  have heven := nonZero_update registers (evenRegister p) (low b)
  have hodd := nonZero_update (Function.update registers (evenRegister p) (low b)) (oddRegister p) (high b)
  rw [Function.update_of_ne evenRegister_ne_oddRegister.symm] at hodd
  rw [storeByte, nonZeroOf, nonZeroOf, low_pageByte, high_pageByte]
  omega

theorem nonZero_noRegisters : nonZero noRegisters = 0 := by
  have hzero : ∀ r, noRegisters r = 0 := fun _ => rfl
  rw [nonZero, Finset.card_eq_zero]
  exact Finset.filter_eq_empty_iff.2 fun r _ => not_not.2 (hzero r)

variable (entries : List (Fin REGISTER_PAGE_BYTES × UInt8))

/-- Entries for distinct places that were free count all their registers. -/
theorem nonZero_storeBytes (registers : Registers) (hdistinct : (entries.map Prod.fst).Nodup)
    (hfree : ∀ entry ∈ entries, pageByte registers entry.1 = 0) :
    nonZero (storeBytes registers entries) = nonZero registers + (entries.map fun entry => nonZeroOf entry.2).sum := by
  induction entries generalizing registers with
  | nil => simp [storeBytes]
  | cons entry entries ih =>
    rw [map_cons, nodup_cons] at hdistinct
    rw [forall_mem_cons] at hfree
    have hstep := nonZero_storeByte registers entry.1 entry.2
    rw [hfree.1, show nonZeroOf 0 = 0 from rfl] at hstep
    have hrest : ∀ e ∈ entries, pageByte (storeByte registers entry.1 entry.2) e.1 = 0 := by
      intro e he
      have hne : e.1 ≠ entry.1 := fun heq => hdistinct.1 (heq ▸ mem_map_of_mem he)
      rw [pageByte_storeByte, if_neg hne]
      exact hfree.2 e he
    have hsum := ih (storeByte registers entry.1 entry.2) hdistinct.2 hrest
    rw [map_cons, sum_cons]
    have heq : storeBytes registers (entry :: entries) = storeBytes (storeByte registers entry.1 entry.2) entries := rfl
    rw [heq, hsum]
    omega

theorem nonZero_le (registers : Registers) : nonZero registers ≤ NUM_REGISTERS := by
  have hcard := Finset.card_filter_le (Finset.univ : Finset (Fin NUM_REGISTERS)) fun r => registers r ≠ 0
  rwa [Finset.card_univ, Fintype.card_fin] at hcard

/-! ## Sparse bodies -/

/-- The registers that the values of three-byte entries count, padding included. -/
def sparseCount : Bytes → ℕ
  | _ :: _ :: valueByte :: body => nonZeroOf valueByte + sparseCount body
  | _ => 0

def entryBytes (entry : Fin REGISTER_PAGE_BYTES × UInt8) : Bytes := beBytes 2 (entry.1 + HEADER_BYTES) ++ [entry.2]

theorem entryBytes_eq (entry : Fin REGISTER_PAGE_BYTES × UInt8) :
    ∃ hi lo, entryBytes entry = [hi, lo, entry.2] ∧ leNat [lo, hi] = entry.1 + HEADER_BYTES := by
  refine ⟨UInt8.ofNat ((entry.1 + HEADER_BYTES) / 256), UInt8.ofNat (entry.1 + HEADER_BYTES), rfl, ?_⟩
  have hvalue := leNat_leBytes 2 (entry.1 + HEADER_BYTES)
  have hp : entry.1.val < 1024 := entry.1.isLt
  rw [Nat.mod_eq_of_lt (by rw [HEADER_BYTES]; omega)] at hvalue
  exact hvalue

theorem sparseEntries_padding (prev : Option ℕ) (padding : Bool) (registers : Registers) (n : ℕ) :
    sparseEntries prev padding registers (List.replicate (n * 3) 0) = .ok registers := by
  induction n generalizing padding with
  | zero => rfl
  | succ n ih =>
    rw [Nat.succ_mul, replicate_succ, replicate_succ, replicate_succ, sparseEntries, if_pos ⟨rfl, rfl, rfl⟩]
    exact ih true

/-- Ascending entries are stored one after the other. -/
theorem sparseEntries_entries (prev : Option ℕ) (registers : Registers) (n : ℕ)
    (hascending : entries.Pairwise fun e e' => e.1 < e'.1) (hprev : ∀ e ∈ entries, ∀ p ∈ prev, p < e.1 + HEADER_BYTES)
    (hbytes : ∀ e ∈ entries, e.2 ≠ 0) :
    sparseEntries prev false registers (entries.flatMap entryBytes ++ List.replicate (n * 3) 0) = .ok (storeBytes registers entries) := by
  induction entries generalizing prev registers with
  | nil => exact sparseEntries_padding prev false registers n
  | cons entry entries ih =>
    rw [pairwise_cons] at hascending
    rw [forall_mem_cons] at hprev hbytes
    obtain ⟨hi, lo, hentry, hpos⟩ := entryBytes_eq entry
    have hlater : ∀ e ∈ entries, ∀ p ∈ some (entry.1 + HEADER_BYTES), p < e.1 + HEADER_BYTES := by
      intro e he p hp
      cases hp
      exact Nat.add_lt_add_right (hascending.1 e he) _
    have hnot : prev.any (entry.1 + HEADER_BYTES ≤ ·) = false := by
      cases prev with
      | none => rfl
      | some p => simpa using hprev.1 p rfl
    have hin : ¬entry.1 + HEADER_BYTES - HEADER_BYTES ≥ REGISTER_PAGE_BYTES := by
      exact Nat.not_le.2 entry.1.isLt
    have hplace : (⟨entry.1 + HEADER_BYTES - HEADER_BYTES, Nat.lt_of_not_le hin⟩ : Fin REGISTER_PAGE_BYTES) = entry.1 :=
      Fin.ext (Nat.add_sub_cancel _ _)
    rw [flatMap_cons, hentry]
    simp only [cons_append, nil_append, sparseEntries, hpos]
    rw [if_neg (fun h => hbytes.1 h.2.2), if_neg (by decide), if_neg (by omega), dif_neg hin, hnot, if_neg (by decide), if_neg hbytes.1, hplace,
      ih _ _ hascending.2 hlater hbytes.2]
    rfl

variable {body : Bytes}

/-- What was stored came from ascending entries, and the body counts their registers. -/
theorem sparseEntries_ok {prev : Option ℕ} {padding : Bool} (h : sparseEntries prev padding registers body = .ok registers') :
    ∃ entries : List (Fin REGISTER_PAGE_BYTES × UInt8), registers' = storeBytes registers entries ∧ entries.Pairwise (fun e e' => e.1 < e'.1) ∧
      (∀ e ∈ entries, ∀ p ∈ prev, p < e.1 + HEADER_BYTES) ∧ sparseCount body = (entries.map fun e => nonZeroOf e.2).sum := by
  fun_induction sparseEntries prev padding registers body with
  | case1 prev padding registers hi lo valueByte body hzero ih =>
    obtain ⟨entries, hstored, hascending, hprev, hcount⟩ := ih h
    refine ⟨entries, hstored, hascending, hprev, ?_⟩
    rw [sparseCount, hcount, hzero.2.2]
    exact Nat.zero_add _
  | case2 => cases h
  | case3 => cases h
  | case4 => cases h
  | case5 => cases h
  | case6 => cases h
  | case7 prev padding registers hi lo valueByte body hzero hpadding bufPos hheader hpage hprev hbyte ih =>
    obtain ⟨entries, hstored, hascending, hlater, hcount⟩ := ih h
    have hplace : bufPos - HEADER_BYTES + HEADER_BYTES = bufPos := Nat.sub_add_cancel (Nat.not_lt.1 hheader)
    refine ⟨(⟨bufPos - HEADER_BYTES, Nat.lt_of_not_le hpage⟩, valueByte) :: entries, hstored, ?_, ?_, ?_⟩
    · refine pairwise_cons.2 ⟨fun e he => ?_, hascending⟩
      have hlt := hlater e he bufPos rfl
      rw [Fin.lt_def]
      dsimp only
      omega
    · have hbefore : ∀ p ∈ prev, p < bufPos := by
        intro p hp
        cases hp
        simpa using hprev
      refine forall_mem_cons.2 ⟨fun p hp => by rw [hplace]; exact hbefore p hp, fun e he p hp => ?_⟩
      exact (hbefore p hp).trans (hlater e he bufPos rfl)
    · rw [sparseCount, hcount]
      rfl
  | case8 prev padding registers body hshort =>
    cases h
    refine ⟨[], rfl, List.Pairwise.nil, by simp, ?_⟩
    rw [sparseCount]
    · rfl
    · exact hshort

/-! ## Images -/

def overflowBytes : Option Overflow → Bytes
  | none => [0, 0, 0]
  | some o => o.value :: beBytes 2 o.register

def header (s : DruidHyperUnique) : Bytes := [BLOB_VERSION, 0] ++ beBytes 2 s.numNonZero ++ overflowBytes s.overflow

def denseImage (s : DruidHyperUnique) : Bytes := header s ++ List.ofFn (pageByte s.registers)

/-- An entry for each page byte that is not zero. -/
def entriesOf (registers : Registers) : List (Fin REGISTER_PAGE_BYTES × UInt8) :=
  ((List.finRange REGISTER_PAGE_BYTES).filter fun p => pageByte registers p ≠ 0).map fun p => (p, pageByte registers p)

def sparseImage (s : DruidHyperUnique) : Bytes :=
  header s ++ ((entriesOf s.registers).flatMap entryBytes ++ List.replicate ((s.numNonZero - (entriesOf s.registers).length) * 3) 0)

theorem decodeOverflow_none (fail : String → SketchError) : decodeOverflow 0 0 fail = .ok none := rfl

theorem decodeOverflow_some (o : Overflow) (fail : String → SketchError) : decodeOverflow o.value o.register fail = .ok (some o) := by
  have hzero : o.value ≠ 0 := by
    intro h
    have := o.above
    rw [h] at this
    exact absurd this (by decide)
  rw [decodeOverflow, if_neg hzero, dif_neg (UInt8.not_le.2 o.above), dif_neg (Nat.not_le.2 o.register.isLt)]

theorem decodeOverflow_bytes (overflow : Option Overflow) (fail : String → SketchError) :
    ∃ value register1 register0, overflowBytes overflow = [value, register1, register0] ∧
      decodeOverflow value (leNat [register0, register1]) fail = .ok overflow := by
  cases overflow with
  | none => exact ⟨0, 0, 0, rfl, decodeOverflow_none fail⟩
  | some o =>
    have hlt : o.register.val < 2048 := o.register.isLt
    have hvalue := leNat_leBytes 2 o.register
    rw [Nat.mod_eq_of_lt (by omega)] at hvalue
    refine ⟨o.value, UInt8.ofNat (o.register / 256), UInt8.ofNat o.register, rfl, ?_⟩
    have hregister : leNat [UInt8.ofNat o.register, UInt8.ofNat (o.register / 256)] = o.register := hvalue
    rw [hregister]
    exact decodeOverflow_some o fail

/-- The header is read, and then the body. -/
theorem fromDruidBlob_header {s : DruidHyperUnique} (h : decodeBody s.numNonZero body = .ok s.registers) :
    fromDruidBlob (header s ++ body) = .ok s := by
  obtain ⟨value, register1, register0, hbytes, hoverflow⟩ := decodeOverflow_bytes s.overflow blobError
  have hle : s.numNonZero ≤ 2048 := nonZero_le s.registers
  have hcount := leNat_leBytes 2 s.numNonZero
  rw [Nat.mod_eq_of_lt (by omega)] at hcount
  have hcount : leNat [UInt8.ofNat s.numNonZero, UInt8.ofNat (s.numNonZero / 256)] = s.numNonZero := hcount
  have himage : header s ++ body =
      BLOB_VERSION :: 0 :: UInt8.ofNat (s.numNonZero / 256) :: UInt8.ofNat s.numNonZero :: value :: register1 :: register0 :: body := by
    rw [header, hbytes]
    rfl
  rw [himage, fromDruidBlob, if_neg (not_not.2 rfl), if_neg (not_not.2 rfl), hcount, hoverflow, ok_bind, h, ok_bind]
  exact if_neg (not_not.2 rfl)

theorem pageByte_densePage (body : Bytes) (p : Fin REGISTER_PAGE_BYTES) : pageByte (densePage body) p = body.getD p 0 := by
  have hstored := pageByte_storeBytes (fun p : Fin REGISTER_PAGE_BYTES => body.getD p 0) (List.finRange REGISTER_PAGE_BYTES) noRegisters p
  rw [if_pos (mem_finRange p)] at hstored
  exact hstored

theorem fromDruidBlob_dense (s : DruidHyperUnique) : fromDruidBlob (denseImage s) = .ok s := by
  have hlen : (List.ofFn (pageByte s.registers)).length = REGISTER_PAGE_BYTES := length_ofFn
  have hpage : densePage (List.ofFn (pageByte s.registers)) = s.registers := by
    apply ext_pageByte
    intro p
    have hin : p.val < (List.ofFn (pageByte s.registers)).length := hlen.symm ▸ p.isLt
    refine (pageByte_densePage _ p).trans ?_
    rw [getD_eq_getElem _ _ hin, List.getElem_ofFn]
  apply fromDruidBlob_header
  rw [decodeBody, if_pos hlen, hpage]

theorem mem_entriesOf {registers : Registers} {e : Fin REGISTER_PAGE_BYTES × UInt8} :
    e ∈ entriesOf registers ↔ e.2 ≠ 0 ∧ e.2 = pageByte registers e.1 := by
  obtain ⟨p, b⟩ := e
  simp only [entriesOf, mem_map, mem_filter, mem_finRange, true_and, decide_eq_true_eq, Prod.mk.injEq]
  constructor
  · rintro ⟨q, hq, rfl, rfl⟩
    exact ⟨hq, rfl⟩
  · rintro ⟨hb, rfl⟩
    exact ⟨p, hb, rfl, rfl⟩

theorem entriesOf_ascending (registers : Registers) : (entriesOf registers).Pairwise fun e e' => e.1 < e'.1 :=
  pairwise_map.2 ((pairwise_lt_finRange _).filter _)

/-- The bytes that are left out are zero. -/
theorem storeBytes_entriesOf (registers : Registers) : storeBytes noRegisters (entriesOf registers) = registers := by
  apply ext_pageByte
  intro p
  rw [entriesOf, pageByte_storeBytes]
  split_ifs with hp
  · rfl
  · rw [pageByte_noRegisters]
    by_contra hne
    exact hp (mem_filter.2 ⟨mem_finRange p, decide_eq_true (Ne.symm hne)⟩)

theorem nonZero_entries {entries : List (Fin REGISTER_PAGE_BYTES × UInt8)} (h : entries.Pairwise fun e e' => e.1 < e'.1) :
    nonZero (storeBytes noRegisters entries) = (entries.map fun e => nonZeroOf e.2).sum := by
  have hdistinct : (entries.map Prod.fst).Nodup := (pairwise_map.2 h).imp fun hlt => ne_of_lt hlt
  rw [nonZero_storeBytes entries noRegisters hdistinct fun e _ => pageByte_noRegisters e.1, nonZero_noRegisters, Nat.zero_add]

theorem length_entriesOf_le (registers : Registers) : (entriesOf registers).length ≤ nonZero registers := by
  have hcount := nonZero_entries (entriesOf_ascending registers)
  rw [storeBytes_entriesOf] at hcount
  have hone : ∀ n ∈ (entriesOf registers).map fun e => nonZeroOf e.2, 1 ≤ n := by
    intro n hn
    obtain ⟨e, he, rfl⟩ := mem_map.1 hn
    exact nonZeroOf_pos (mem_entriesOf.1 he).1
  have hle := length_le_sum_of_one_le _ hone
  rwa [length_map, ← hcount] at hle

theorem length_flatMap_entryBytes : (entries.flatMap entryBytes).length = entries.length * 3 := by
  have hthree : ∀ e : Fin REGISTER_PAGE_BYTES × UInt8, (entryBytes e).length = 3 := fun _ => rfl
  simp [length_flatMap, hthree]

theorem fromDruidBlob_sparse (s : DruidHyperUnique) : fromDruidBlob (sparseImage s) = .ok s := by
  have hle := length_entriesOf_le s.registers
  have hlen : ((entriesOf s.registers).flatMap entryBytes ++
      List.replicate ((s.numNonZero - (entriesOf s.registers).length) * 3) (0 : UInt8)).length = s.numNonZero * 3 := by
    rw [length_append, length_flatMap_entryBytes, length_replicate, ← Nat.add_mul, DruidHyperUnique.numNonZero, Nat.add_sub_of_le hle]
  apply fromDruidBlob_header
  -- three bytes an entry are never a dense page
  rw [decodeBody, if_neg (by rw [hlen, REGISTER_PAGE_BYTES]; omega), hlen, if_pos (Nat.mul_mod_left _ 3), if_neg (not_not.2 rfl),
    sparseEntries_entries _ none noRegisters _ (entriesOf_ascending _) (by simp) (fun e he => (mem_entriesOf.1 he).1), storeBytes_entriesOf]

/-! ## Declared counts -/

/-- The registers that a body encodes, whichever of the shapes it has. -/
def encodedCount (body : Bytes) : ℕ := if body.length = REGISTER_PAGE_BYTES then (body.map nonZeroOf).sum else sparseCount body

theorem decodeBody_count {declared : ℕ} (h : decodeBody declared body = .ok registers) : nonZero registers = encodedCount body := by
  unfold decodeBody at h
  unfold encodedCount
  split_ifs at h ⊢ with hdense
  · rw [← Except.ok.inj h]
    have hascending : ((List.finRange REGISTER_PAGE_BYTES).map fun p : Fin REGISTER_PAGE_BYTES => (p, body.getD p 0)).Pairwise fun e e' => e.1 < e'.1 :=
      pairwise_map.2 (pairwise_lt_finRange _)
    have hbody : (List.finRange REGISTER_PAGE_BYTES).map (fun p : Fin REGISTER_PAGE_BYTES => body.getD p 0) = body := by
      apply ext_get
      · rw [length_map, length_finRange, hdense]
      · intro i hi hi'
        rw [get_eq_getElem, getElem_map, getElem_finRange]
        exact getD_eq_getElem _ _ hi'
    have hcounts := congrArg (fun bs => (bs.map nonZeroOf).sum) hbody
    rw [map_map] at hcounts
    refine (nonZero_entries hascending).trans (Eq.trans ?_ hcounts)
    rw [map_map]
    rfl
  · obtain ⟨entries, rfl, hascending, -, hcount⟩ := sparseEntries_ok h
    rw [hcount, nonZero_entries hascending]

/-- A declared count is the count of the registers that the body encodes. -/
theorem declared_of_fromDruidBlob {data : Bytes} {s : DruidHyperUnique} (h : fromDruidBlob data = .ok s) :
    beAt data 2 2 = s.numNonZero ∧ encodedCount (data.drop HEADER_BYTES) = s.numNonZero := by
  unfold fromDruidBlob at h
  split at h
  · split_ifs at h
    obtain ⟨overflow, -, h⟩ := bind_eq_ok.1 h
    obtain ⟨registers, hbody, h⟩ := bind_eq_ok.1 h
    dsimp only at h
    split_ifs at h with hcount
    cases h
    exact ⟨(not_not.1 hcount).symm, (decodeBody_count hbody).symm⟩
  · cases h

end

/-! ## Merging hyperUnique sketches

The registers of a merge are the maxima of its operands', and so is the overflow
value: whatever the order and the grouping, one sketch comes of many but for the
register that the overflow value is at. A sketch survives the wire. -/

/-! ## The wire -/

theorem wireRegister_registerByte (i : ℕ) (v : Nibble) : wireRegister i (registerByte v) = .ok v := by
  have hv := v.isLt
  have hnat : (registerByte v).toNat = v := by
    rw [registerByte, UInt8.toNat_ofNat']
    omega
  have hle : ¬registerByte v > MAX_NIBBLE := by
    rw [gt_iff_lt, UInt8.lt_iff_toNat_lt, hnat]
    exact Nat.not_lt.2 (Nat.le_of_lt_succ hv)
  rw [wireRegister, dif_neg hle]
  exact congrArg _ (Fin.ext hnat)

theorem wireRegisters_map (registers : List Nibble) (i : ℕ) : wireRegisters i (registers.map registerByte) = .ok registers := by
  induction registers generalizing i with
  | nil => rfl
  | cons v registers ih =>
    rw [map_cons, wireRegisters, wireRegister_registerByte, ok_bind, ih, ok_bind]
    rfl

namespace DruidHyperUnique

variable (s : DruidHyperUnique)

theorem serialize_eq : ∃ value register0 register1,
      s.serialize = WIRE_VERSION :: value :: register0 :: register1 :: (List.ofFn s.registers).map registerByte ∧
        decodeOverflow value (leNat [register0, register1]) wireError = .ok s.overflow := by
  obtain ⟨registers, overflow⟩ := s
  have hmap : (List.ofFn registers).map registerByte = List.ofFn fun r => registerByte (registers r) := map_ofFn
  rw [hmap]
  unfold serialize
  generalize (List.ofFn fun r => registerByte (registers r)) = body
  cases overflow with
  | none => exact ⟨0, 0, 0, rfl, decodeOverflow_none wireError⟩
  | some o =>
    have hlt : o.register.val < 2048 := o.register.isLt
    have hvalue := leNat_leBytes 2 o.register
    rw [Nat.mod_eq_of_lt (by omega)] at hvalue
    have hregister : leNat [UInt8.ofNat o.register, UInt8.ofNat (o.register / 256)] = o.register := hvalue
    refine ⟨o.value, UInt8.ofNat o.register, UInt8.ofNat (o.register / 256), rfl, ?_⟩
    rw [hregister]
    exact decodeOverflow_some o wireError

theorem deserialize_serialize : deserialize s.serialize = .ok s := by
  obtain ⟨value, register0, register1, himage, hoverflow⟩ := s.serialize_eq
  have hlen : s.serialize.length = WIRE_LEN := by
    rw [himage]
    simp only [length_cons, length_map, length_ofFn, WIRE_LEN]
    omega
  have hregisters : (fun r : Fin NUM_REGISTERS => (List.ofFn s.registers).getD r 0) = s.registers := by
    funext r
    rw [getD_eq_getElem _ _ (by rw [length_ofFn]; exact r.isLt), List.getElem_ofFn]
  rw [himage] at hlen ⊢
  rw [deserialize, if_neg (not_not.2 hlen), if_neg (not_not.2 rfl), hoverflow, ok_bind, wireRegisters_map, ok_bind, hregisters]
  rfl

/-! ## Merging -/

/-- None is zero, as it is in a header. -/
def overflowValue (s : DruidHyperUnique) : ℕ := (s.overflow.map fun o => o.value.toNat).getD 0

variable (s' : DruidHyperUnique)

theorem registers_merged : (s.merged s').registers = s.registers ⊔ s'.registers := by
  funext r
  rw [Pi.sup_apply, merged]
  dsimp only
  split_ifs with hlt
  · exact (sup_eq_right.2 hlt.le).symm
  · exact (sup_eq_left.2 (not_lt.1 hlt)).symm

theorem overflowValue_merged : (s.merged s').overflowValue = s.overflowValue ⊔ s'.overflowValue := by
  obtain ⟨registers, overflow⟩ := s
  obtain ⟨registers', overflow'⟩ := s'
  unfold overflowValue merged
  cases overflow with
  | none => cases overflow' <;> simp [mergeOverflow]
  | some a =>
    cases overflow' with
    | none => simp [mergeOverflow]
    | some b =>
      simp only [mergeOverflow, Option.map_some, Option.getD_some]
      split_ifs with hlt
      · exact (sup_eq_right.2 (UInt8.lt_iff_toNat_lt.1 hlt).le).symm
      · exact (sup_eq_left.2 (Nat.not_lt.1 (mt UInt8.lt_iff_toNat_lt.2 hlt))).symm

/-- The pair is that of an operand. -/
theorem overflow_merged : (s.merged s').overflow = s.overflow ∨ (s.merged s').overflow = s'.overflow := by
  obtain ⟨registers, overflow⟩ := s
  obtain ⟨registers', overflow'⟩ := s'
  unfold merged
  cases overflow with
  | none => exact Or.inr (by cases overflow' <;> rfl)
  | some a =>
    cases overflow' with
    | none => exact Or.inl rfl
    | some b =>
      rw [mergeOverflow]
      split_ifs
      · exact Or.inr rfl
      · exact Or.inl rfl

theorem overflow_eval (t : MergeTree DruidHyperUnique) {o : Overflow} (h : (t.eval id merged).overflow = some o) :
    ∃ s ∈ t.parts, s.overflow = some o := by
  induction t with
  | leaf s => exact ⟨s, mem_singleton_self s, h⟩
  | node left right ihl ihr =>
    simp only [MergeTree.parts, mem_append]
    rcases overflow_merged (left.eval id merged) (right.eval id merged) with heq | heq
    · obtain ⟨s, hs, ho⟩ := ihl (heq ▸ h)
      exact ⟨s, Or.inl hs, ho⟩
    · obtain ⟨s, hs, ho⟩ := ihr (heq ▸ h)
      exact ⟨s, Or.inr hs, ho⟩

end DruidHyperUnique

/-! ## Meaning -/

open DruidHyperUnique in
/-- Both images of a sketch are read as it, an image with another count is refused, a
sketch comes back from the wire, and a multiset of sketches has one merge. -/
theorem hyperUnique_meaning :
    (∀ s : DruidHyperUnique, fromDruidBlob (denseImage s) = .ok s ∧ fromDruidBlob (sparseImage s) = .ok s) ∧
      (∀ data : Bytes, beAt data 2 2 ≠ encodedCount (data.drop HEADER_BYTES) → ∃ e, fromDruidBlob data = .error e) ∧
      (∀ s : DruidHyperUnique, deserialize s.serialize = .ok s) ∧
      ∀ (sketches : Multiset DruidHyperUnique) (t : MergeTree DruidHyperUnique), (t.parts : Multiset DruidHyperUnique) = sketches →
        (∀ r, (t.eval id merged).registers r = (sketches.map fun s => s.registers r).sup) ∧
          (t.eval id merged).overflowValue = (sketches.map overflowValue).sup ∧
          ∀ o, (t.eval id merged).overflow = some o → ∃ s ∈ sketches, s.overflow = some o := by
  refine ⟨fun s => ⟨fromDruidBlob_dense s, fromDruidBlob_sparse s⟩, ?_, deserialize_serialize, ?_⟩
  · intro data hne
    rcases hdecode : fromDruidBlob data with e | s
    · exact ⟨e, rfl⟩
    · obtain ⟨hdeclared, hencoded⟩ := declared_of_fromDruidBlob hdecode
      exact absurd (hdeclared.trans hencoded.symm) hne
  · rintro sketches t rfl
    refine ⟨fun r => ?_, ?_, ?_⟩
    · exact MergeTree.eval_sup (fun s : DruidHyperUnique => s.registers r) (fun s s' => congrFun (registers_merged s s') r) t
    · exact MergeTree.eval_sup overflowValue overflowValue_merged t
    · intro o ho
      obtain ⟨s, hs, hso⟩ := overflow_eval t ho
      exact ⟨s, Multiset.mem_coe.2 hs, hso⟩

end FerroDruid.Sketches.HyperUnique
