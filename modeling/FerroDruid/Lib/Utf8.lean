import FerroDruid.Lib.Bytes
/-!
# UTF-8

A string is its bytes with the proof that they are well formed. A scan goes
over the bytes and knows how many the character it is in still owes, so a
string scanned in two parts is scanned from where the first part ended.
-/

namespace FerroDruid.Lib

def isContinuation (b : UInt8) : Bool := 0x80 ≤ b && b ≤ 0xBF

/-- The bytes a character still owes, and the range of the next. -/
structure Owing where
  owed : ℕ
  low : UInt8
  high : UInt8
  continues : 0x80 ≤ low ∧ high ≤ 0xBF

namespace Owing

/-- Between characters. -/
def nothing : Owing := ⟨0, 0x80, 0xBF, by decide⟩

/-- After the first byte of a character: no overlong form, no surrogate,
nothing above the last code point. -/
def lead (b : UInt8) : Option Owing :=
  if b < 0x80 then some nothing
  else if b < 0xC2 then none
  else if b < 0xE0 then some ⟨1, 0x80, 0xBF, by decide⟩
  else if b = 0xE0 then some ⟨2, 0xA0, 0xBF, by decide⟩
  else if b = 0xED then some ⟨2, 0x80, 0x9F, by decide⟩
  else if b < 0xF0 then some ⟨2, 0x80, 0xBF, by decide⟩
  else if b = 0xF0 then some ⟨3, 0x90, 0xBF, by decide⟩
  else if b < 0xF4 then some ⟨3, 0x80, 0xBF, by decide⟩
  else if b = 0xF4 then some ⟨3, 0x80, 0x8F, by decide⟩
  else none

def next (q : Owing) (b : UInt8) : Option Owing :=
  if q.owed = 0 then lead b
  else if q.low ≤ b ∧ b ≤ q.high then some ⟨q.owed - 1, 0x80, 0xBF, by decide⟩
  else none

def scan : Owing → Bytes → Option Owing
  | q, [] => some q
  | q, b :: bs => (q.next b).bind (scan · bs)

theorem scan_append (q : Owing) (bs bs' : Bytes) : q.scan (bs ++ bs') = (q.scan bs).bind (scan · bs') := by
  induction bs generalizing q with
  | nil => rfl
  | cons b bs ih =>
    rw [List.cons_append, scan, scan, Option.bind_assoc]
    exact congrArg _ (funext fun q' => ih q')

/-- The inside of a character goes on with a continuation byte. -/
theorem isContinuation_of_next {q q' : Owing} {b : UInt8} (hq : q.owed ≠ 0) (h : q.next b = some q') :
    isContinuation b = true := by
  unfold next at h
  rw [if_neg hq] at h
  split_ifs at h with hb
  simp only [isContinuation, Bool.and_eq_true, decide_eq_true_eq]
  exact ⟨UInt8.le_trans q.continues.1 hb.1, UInt8.le_trans hb.2 q.continues.2⟩

/-- Only the count matters between characters. -/
theorem scan_of_owed_zero {q : Owing} (hq : q.owed = 0) (b : UInt8) (bs : Bytes) :
    q.scan (b :: bs) = nothing.scan (b :: bs) := by
  simp only [scan, next, hq, nothing, if_true]

end Owing

/-- The scan ends between characters. -/
def validUtf8 (bs : Bytes) : Bool :=
  match Owing.nothing.scan bs with
  | some q => q.owed = 0
  | none => false

/-- `str::is_char_boundary`: the ends, and every byte that is not a
continuation. -/
def isCharBoundary (bs : Bytes) (i : ℕ) : Bool :=
  if i = 0 then true
  else
    match bs[i]? with
    | none => i = bs.length
    | some b => !isContinuation b

variable {bs : Bytes}

theorem validUtf8_iff : validUtf8 bs = true ↔ ∃ q, Owing.nothing.scan bs = some q ∧ q.owed = 0 := by
  unfold validUtf8
  cases Owing.nothing.scan bs with
  | none => simp
  | some q => simp

/-- After a whole string, what follows decides. -/
theorem validUtf8_append (h : validUtf8 bs = true) (bs' : Bytes) : validUtf8 (bs ++ bs') = validUtf8 bs' := by
  obtain ⟨q, hq, hzero⟩ := validUtf8_iff.1 h
  cases bs' with
  | nil =>
    rw [List.append_nil, h]
    rfl
  | cons b t =>
    unfold validUtf8
    rw [Owing.scan_append, hq, Option.bind_some, Owing.scan_of_owed_zero hzero]

/-- A boundary cuts a string after a whole string. -/
theorem validUtf8_take (h : validUtf8 bs = true) {i : ℕ} (hi : isCharBoundary bs i = true) :
    validUtf8 (bs.take i) = true := by
  obtain ⟨q, hq, hzero⟩ := validUtf8_iff.1 h
  rw [← List.take_append_drop i bs, Owing.scan_append] at hq
  obtain ⟨q', hq', hrest⟩ := Option.bind_eq_some_iff.1 hq
  refine validUtf8_iff.2 ⟨q', hq', ?_⟩
  by_contra howed
  -- inside a character the next byte is a continuation
  cases hd : bs.drop i with
  | nil =>
    rw [hd] at hrest
    cases hrest
    exact howed hzero
  | cons b t =>
    rw [hd] at hrest
    obtain ⟨q'', hq'', -⟩ := Option.bind_eq_some_iff.1 hrest
    have hget : bs[i]? = some b := by
      have h0 : (bs.drop i)[0]? = some b := by rw [hd]; rfl
      simpa using h0
    unfold isCharBoundary at hi
    rw [hget] at hi
    split_ifs at hi with hi0
    · subst hi0
      cases hq'
      exact howed rfl
    · simp [Owing.isContinuation_of_next howed hq''] at hi

/-- Every ASCII byte is a character. -/
theorem validUtf8_of_ascii (h : ∀ b ∈ bs, b < 0x80) : validUtf8 bs = true := by
  induction bs with
  | nil => rfl
  | cons b bs ih =>
    obtain ⟨hb, h⟩ := List.forall_mem_cons.1 h
    have hone : validUtf8 [b] = true := by
      simp [validUtf8, Owing.scan, Owing.next, Owing.nothing, Owing.lead, hb]
    exact (validUtf8_append hone bs).trans (ih h)

/-! ## Strings -/

structure Utf8 where
  bytes : Bytes
  valid : validUtf8 bytes = true
  deriving DecidableEq

namespace Utf8

/-- `str::from_utf8`. -/
def ofBytes? (bs : Bytes) : Option Utf8 := if h : validUtf8 bs = true then some ⟨bs, h⟩ else none

@[ext] theorem ext {s t : Utf8} (h : s.bytes = t.bytes) : s = t := by
  cases s
  cases t
  simp_all

def ofAscii (bs : Bytes) (h : ∀ b ∈ bs, b < 0x80) : Utf8 := ⟨bs, validUtf8_of_ascii h⟩

instance : Append Utf8 := ⟨fun s t => ⟨s.bytes ++ t.bytes, (validUtf8_append s.valid t.bytes).trans t.valid⟩⟩

@[simp] theorem bytes_append (s t : Utf8) : (s ++ t).bytes = s.bytes ++ t.bytes := rfl

@[simp] theorem ofBytes?_bytes (s : Utf8) : ofBytes? s.bytes = some s := dif_pos s.valid

/-- What follows a whole string in a string is a string. -/
theorem valid_of_append {s : Utf8} {bs bs' : Bytes} (h : s.bytes = bs ++ bs') (hbs : validUtf8 bs = true) :
    validUtf8 bs' = true := by
  rw [← validUtf8_append hbs, ← h]
  exact s.valid

end Utf8

/-! ## Characters of UTF-8

A character is a string that is not empty and that no shorter string begins, so a
list of characters is known by its bytes. -/

structure Utf8Char where
  bytes : Bytes
  valid : validUtf8 bytes = true
  single : bytes ≠ [] ∧ ∀ i < bytes.length, 0 < i → validUtf8 (bytes.take i) = false
  deriving DecidableEq

namespace Utf8Char

def ofAscii (b : UInt8) (h : b < 0x80) : Utf8Char where
  bytes := [b]
  valid := validUtf8_of_ascii (by simpa using h)
  single := ⟨List.cons_ne_nil _ _, fun i hi hpos => by
    rw [List.length_singleton] at hi
    omega⟩

/-- The bytes of a text. -/
def encode (cs : List Utf8Char) : Bytes := cs.flatMap bytes

theorem valid_encode (cs : List Utf8Char) : validUtf8 (encode cs) = true := by
  induction cs with
  | nil => rfl
  | cons c cs ih =>
    rw [encode, List.flatMap_cons, validUtf8_append c.valid]
    exact ih

def toUtf8 (cs : List Utf8Char) : Utf8 := ⟨encode cs, valid_encode cs⟩

end Utf8Char

end FerroDruid.Lib
