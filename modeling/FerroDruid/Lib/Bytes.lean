import Mathlib.Data.List.Forall2
import Mathlib.Data.List.Infix
import Mathlib.Data.Nat.Bitwise
import Mathlib.Tactic.Ring
/-!
# Bytes in a buffer

A buffer is read at a position. `At data pos bs` says that `bs` stands there;
a reader is correct when it returns what an encoder wrote wherever that stands.
-/

namespace FerroDruid.Lib

open List

abbrev Bytes := List UInt8

/-- What is said of the items of a list is decided on these, not on all of a finite type. -/
instance (priority := high) decidableForallMem {α : Type} (items : List α) (p : α → Prop) [DecidablePred p] :
    Decidable (∀ a ∈ items, p a) := List.decidableBAll p items

instance lawfulBEqBytes : LawfulBEq (List UInt8) := inferInstance

/-- `bs` stands in `data` at `pos`. -/
def At (data : Bytes) (pos : ℕ) (bs : Bytes) : Prop := bs <+: data.drop pos

namespace At

variable {data bs bs' : Bytes} {pos : ℕ}

theorem append_iff : At data pos (bs ++ bs') ↔ At data pos bs ∧ At data (pos + bs.length) bs' := by
  constructor
  · rintro ⟨t, ht⟩
    have hdrop : data.drop (pos + bs.length) = bs' ++ t := by
      rw [← drop_drop, ← ht, append_assoc, drop_left]
    exact ⟨⟨bs' ++ t, by rw [← ht, append_assoc]⟩, ⟨t, hdrop.symm⟩⟩
  · rintro ⟨⟨t, ht⟩, ⟨t', ht'⟩⟩
    refine ⟨t', ?_⟩
    rw [← drop_drop, ← ht, drop_left] at ht'
    rw [append_assoc, ht', ht]

theorem cons_iff {b : UInt8} : At data pos (b :: bs) ↔ data[pos]? = some b ∧ At data (pos + 1) bs := by
  rw [← singleton_append, append_iff]
  refine and_congr_left fun _ => ?_
  unfold At
  cases hd : data.drop pos with
  | nil =>
    have : data[pos]? = none := by simpa using hd
    simp [this]
  | cons c t =>
    have : data[pos]? = some c := by
      have h0 : (data.drop pos)[0]? = some c := by rw [hd]; rfl
      simpa using h0
    simp [this, cons_prefix_cons, eq_comm]

/-- What stands at a position is within the buffer. -/
theorem length_le (h : At data pos bs) (hbs : bs ≠ []) : pos + bs.length ≤ data.length := by
  have hlen := List.IsPrefix.length_le h
  rw [length_drop] at hlen
  have := length_pos_of_ne_nil hbs
  omega

/-- A slice of the buffer is what stands there. -/
theorem take_eq (h : At data pos bs) : (data.drop pos).take bs.length = bs := by
  obtain ⟨t, ht⟩ := h
  rw [← ht, take_left]

end At

/-! ## Fixed-width numbers -/

/-- The low `w` bytes of `n`, least significant first. -/
def leBytes : ℕ → ℕ → Bytes
  | 0, _ => []
  | w + 1, n => UInt8.ofNat n :: leBytes w (n / 256)

def leNat : Bytes → ℕ
  | [] => 0
  | b :: bs => b.toNat + 256 * leNat bs

/-- The number in `w` bytes at `pos`. -/
def leAt (data : Bytes) (w pos : ℕ) : ℕ := leNat ((data.drop pos).take w)

variable (w n : ℕ)

@[simp] theorem length_leBytes : (leBytes w n).length = w := by
  induction w generalizing n with
  | zero => rfl
  | succ w ih => simp [leBytes, ih]

theorem leNat_leBytes : leNat (leBytes w n) = n % 256 ^ w := by
  induction w generalizing n with
  | zero => simp [leBytes, leNat, Nat.mod_one]
  | succ w ih =>
    have hbyte : (UInt8.ofNat n).toNat = n % 256 := by simp
    rw [leBytes, leNat, ih, hbyte, Nat.pow_succ', Nat.mod_mul]

theorem leBytes_mod : leBytes w (n % 256 ^ w) = leBytes w n := by
  induction w generalizing n with
  | zero => rfl
  | succ w ih =>
    have hbyte : UInt8.ofNat (n % 256 ^ (w + 1)) = UInt8.ofNat n := by
      refine UInt8.toNat_inj.1 ?_
      exact Nat.mod_mod_of_dvd n (Dvd.intro_left (256 ^ w) rfl)
    rw [leBytes, leBytes, hbyte, Nat.pow_succ', Nat.mod_mul_right_div_self, ih]

theorem leNat_lt (bs : Bytes) : leNat bs < 256 ^ bs.length := by
  induction bs with
  | nil => simp [leNat]
  | cons b bs ih =>
    have hb := b.toNat_lt
    rw [leNat, length_cons, Nat.pow_succ]
    omega

theorem leAt_lt (data : Bytes) (w pos : ℕ) : leAt data w pos < 256 ^ w :=
  (leNat_lt _).trans_le (Nat.pow_le_pow_right (by decide) (length_take_le _ _))

theorem leAt_of_at {data : Bytes} {w pos n : ℕ} (h : At data pos (leBytes w n)) : leAt data w pos = n % 256 ^ w := by
  have hslice := h.take_eq
  rw [length_leBytes] at hslice
  rw [leAt, hslice, leNat_leBytes]

/-- The low `w` bytes of `n`, most significant first. -/
def beBytes (w n : ℕ) : Bytes := (leBytes w n).reverse

/-- The big-endian number in `w` bytes at `pos`. -/
def beAt (data : Bytes) (w pos : ℕ) : ℕ := leNat ((data.drop pos).take w).reverse

@[simp] theorem length_beBytes : (beBytes w n).length = w := by simp [beBytes]

theorem beAt_of_at {data : Bytes} {w pos n : ℕ} (h : At data pos (beBytes w n)) : beAt data w pos = n % 256 ^ w := by
  have hslice := h.take_eq
  rw [length_beBytes] at hslice
  rw [beAt, hslice, beBytes, reverse_reverse, leNat_leBytes]

/-! ## Seven bits and a flag -/

theorem UInt8.forall_of_fin {P : UInt8 → Prop} (h : ∀ i : Fin 256, P (UInt8.ofNat i)) (b : UInt8) : P b := by
  simpa using h ⟨b.toNat, b.toNat_lt⟩

variable (b : UInt8)

theorem toNat_low_bits : (b &&& 0x7F).toNat = b.toNat % 128 := by
  exact Nat.and_two_pow_sub_one_eq_mod b.toNat 7

/-- The highest bit of a byte. -/
theorem testBit_seven : b.toNat.testBit 7 = decide (128 ≤ b.toNat) := by
  have hb := b.toNat_lt
  rw [Nat.testBit_eq_decide_div_mod_eq, decide_eq_decide]
  omega

theorem flag_eq_zero_iff : b &&& 0x80 = 0 ↔ b.toNat < 128 := by
  have hflag : (b &&& 0x80).toNat = (b.toNat.testBit 7).toNat * 128 := by
    exact Nat.and_two_pow b.toNat 7
  rw [← UInt8.toNat_inj, hflag, testBit_seven]
  by_cases hhigh : 128 ≤ b.toNat
  · simp [hhigh]
  · simp [hhigh, Nat.lt_of_not_le hhigh]

theorem toNat_set_flag : (b ||| 0x80).toNat = b.toNat % 128 + 128 := by
  have hb := b.toNat_lt
  have hlow : b.toNat % 128 < 2 ^ 7 := Nat.mod_lt _ (by decide)
  have hflag := Nat.two_pow_add_eq_or_of_lt hlow 1
  change b.toNat ||| 128 = _
  obtain hhigh | hhigh : b.toNat / 128 = 0 ∨ b.toNat / 128 = 1 := by omega
  · have hself : b.toNat % 128 = b.toNat := by omega
    rw [hself] at hflag ⊢
    rw [Nat.or_comm, add_comm]
    exact hflag.symm
  · -- the flag is set already
    have hsplit : b.toNat = 2 ^ 7 * 1 ||| b.toNat % 128 := by
      omega
    have hself : b.toNat ||| 128 = b.toNat := by
      conv_lhs => rw [hsplit, Nat.or_comm, ← Nat.or_assoc]
      exact (congrArg (· ||| _) (Nat.or_self 128)).trans hsplit.symm
    omega

/-- `0x` and two digits. -/
def hexByte (b : UInt8) : String := "0x" ++ String.ofList [Nat.digitChar (b.toNat / 16), Nat.digitChar (b.toNat % 16)]

/-! ## Readers that may fail -/

variable {ε α β : Type}

theorem ok_bind (a : α) (f : α → Except ε β) : (Except.ok a >>= f) = f a := rfl

variable {x : Except ε α} {f : α → Except ε β}

theorem bind_eq_ok {b : β} : (x >>= f) = .ok b ↔ ∃ a, x = .ok a ∧ f a = .ok b := by
  cases x with
  | error e => exact ⟨nofun, nofun⟩
  | ok a => exact ⟨fun h => ⟨a, rfl, h⟩, fun ⟨_, ha, h⟩ => by cases ha; exact h⟩

/-- Neither the first reader nor what follows it fails so. -/
theorem bind_ne_error {e : ε} (hx : x ≠ .error e)
    (hf : ∀ a, x = .ok a → f a ≠ .error e) : (x >>= f) ≠ .error e := by
  cases x with
  | error e' => exact fun h => hx (congrArg _ (Except.error.inj h))
  | ok a => exact hf a rfl

theorem mapError_eq_ok {ε' : Type} {f : ε → ε'} {a : α} : x.mapError f = .ok a ↔ x = .ok a := by
  cases x with
  | error e => exact ⟨nofun, nofun⟩
  | ok b => rw [Except.mapError, Except.ok.injEq, Except.ok.injEq]

variable {xs : List α} {ys : List β}

/-- A reader of a list succeeds exactly if it does on every item. -/
theorem mapM_eq_ok : xs.mapM f = .ok ys ↔ List.Forall₂ (fun x y => f x = .ok y) xs ys := by
  induction xs generalizing ys with
  | nil => simp [pure, Except.pure, forall₂_nil_left_iff, eq_comm]
  | cons x xs ih =>
    rw [mapM_cons]
    simp only [bind_eq_ok, pure, Except.pure, Except.ok.injEq]
    constructor
    · rintro ⟨y, hy, ys, hys, rfl⟩
      exact .cons hy (ih.1 hys)
    · rintro (_ | ⟨hy, hys⟩)
      exact ⟨_, hy, _, ih.2 hys, rfl⟩

variable {g : α → β}

theorem mapM_of_ok (h : ∀ x ∈ xs, f x = .ok (g x)) : xs.mapM f = .ok (xs.map g) :=
  mapM_eq_ok.2 (forall₂_map_right_iff.2 (forall₂_same.2 h))

/-- What is said of each result, when that depends on the element only. -/
theorem map_eq_map_of_mapM {γ : Type} {g : α → γ} {p : β → γ} (h : xs.mapM f = .ok ys)
    (hg : ∀ x y, f x = .ok y → g x = p y) : xs.map g = ys.map p := by
  have hforall := mapM_eq_ok.1 h
  clear h
  induction hforall with
  | nil => rfl
  | cons hx _ ih => rw [map_cons, map_cons, hg _ _ hx, ih]

theorem map_of_mapM (h : xs.mapM f = .ok ys) (hg : ∀ x y, f x = .ok y → g x = y) : xs.map g = ys := by
  rw [map_eq_map_of_mapM (p := id) h hg, map_id]

theorem forall_of_mapM (h : xs.mapM f = .ok ys) : ∀ x ∈ xs, ∃ y, f x = .ok y := by
  have hforall := mapM_eq_ok.1 h
  clear h
  induction hforall with
  | nil => exact forall_mem_nil _
  | cons hx _ ih => exact forall_mem_cons.2 ⟨⟨_, hx⟩, ih⟩

theorem exists_mapM_of_forall (h : ∀ x ∈ xs, ∃ y, f x = .ok y) : ∃ ys, xs.mapM f = .ok ys := by
  simp only [mapM_eq_ok]
  induction xs with
  | nil => exact ⟨[], .nil⟩
  | cons x xs ih =>
    obtain ⟨⟨y, hy⟩, hxs⟩ := forall_mem_cons.1 h
    obtain ⟨ys, hys⟩ := ih hxs
    exact ⟨y :: ys, .cons hy hys⟩

theorem exists_of_mapM (h : xs.mapM f = .ok ys) : ∀ y ∈ ys, ∃ x ∈ xs, f x = .ok y := by
  have hforall := mapM_eq_ok.1 h
  clear h
  induction hforall with
  | nil => exact forall_mem_nil _
  | cons hx _ ih =>
    refine forall_mem_cons.2 ⟨⟨_, mem_cons_self, hx⟩, fun y hy => ?_⟩
    obtain ⟨x, hmem, hfx⟩ := ih y hy
    exact ⟨x, mem_cons_of_mem _ hmem, hfx⟩

theorem mapM_of_error {x : α} (hx : x ∈ xs) (h : ∃ e, f x = .error e) : ∃ e, xs.mapM f = .error e := by
  cases hall : xs.mapM f with
  | error e => exact ⟨e, rfl⟩
  | ok ys =>
    obtain ⟨e, he⟩ := h
    obtain ⟨y, -, hy⟩ : ∃ y ∈ ys, f x = .ok y := by
      have hforall := mapM_eq_ok.1 hall
      clear hall
      induction hforall with
      | nil => cases hx
      | cons hxy _ ih =>
        rcases mem_cons.1 hx with rfl | hx
        · exact ⟨_, mem_cons_self .., hxy⟩
        · obtain ⟨y, hy, hfy⟩ := ih hx
          exact ⟨y, mem_cons_of_mem _ hy, hfy⟩
    rw [he] at hy
    cases hy

theorem mapM_eq_some {f : α → Option β} :
    xs.mapM f = some ys ↔ List.Forall₂ (fun x y => f x = some y) xs ys := by
  induction xs generalizing ys with
  | nil => simp [forall₂_nil_left_iff, eq_comm]
  | cons x xs ih =>
    rw [mapM_cons]
    constructor
    · intro h
      obtain ⟨y, hy, h⟩ := Option.bind_eq_some_iff.1 h
      obtain ⟨ys, hys, h⟩ := Option.bind_eq_some_iff.1 h
      cases h
      exact .cons hy (ih.1 hys)
    · rintro (_ | ⟨hy, hys⟩)
      exact Option.bind_eq_some_iff.2 ⟨_, hy, Option.bind_eq_some_iff.2 ⟨_, ih.2 hys, rfl⟩⟩

/-- What is written item by item is read back exactly if every item is. -/
theorem mapM_map_eq_some_iff {f : β → Option α} : (xs.map g).mapM f = some xs ↔ ∀ x ∈ xs, f (g x) = some x := by
  rw [mapM_eq_some, forall₂_map_left_iff, forall₂_same]

theorem foldlM_eq_ok {f : β → α → Except ε β} {g : β → α → β} (h : ∀ x ∈ xs, ∀ b, f b x = .ok (g b x)) (b : β) :
    xs.foldlM f b = .ok (xs.foldl g b) := by
  induction xs generalizing b with
  | nil => rfl
  | cons x xs ih =>
    obtain ⟨hx, hxs⟩ := forall_mem_cons.1 h
    rw [foldlM_cons, hx, ok_bind, ih hxs, foldl_cons]

theorem exists_of_foldlM {f : β → α → Except ε β} {b b' : β} (h : xs.foldlM f b = .ok b') :
    ∀ x ∈ xs, ∃ c c', f c x = .ok c' := by
  induction xs generalizing b with
  | nil => exact forall_mem_nil _
  | cons x xs ih =>
    obtain ⟨c, hx, hxs⟩ := bind_eq_ok.1 h
    exact forall_mem_cons.2 ⟨⟨b, c, hx⟩, ih hxs⟩

end FerroDruid.Lib
