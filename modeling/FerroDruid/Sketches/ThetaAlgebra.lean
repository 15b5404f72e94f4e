import FerroDruid.Sketches.ThetaUnion
/-!
# Expressions over sketches

A sketch that holds all elements of a set below its bound is a sample of the set.
`resolved_threshold` takes a sketch without hashes for one of the empty set, whatever
its bound says. So an operation samples its result on the sets, with the empty set in
the place of those of which nothing is retained.
-/

namespace FerroDruid.Sketches

open Lib

namespace ThetaSketch

variable {seed : UInt16} {l r s : ThetaSketch} {X Y : Set UInt64}

/-- A Druid sketch of one seed; an empty one may not know it. -/
structure OfSeed (seed : UInt16) (s : ThetaSketch) : Prop where
  origin : s.druidOrigin = true
  seeds : ∀ x ∈ s.druidSeedHash, x = seed

/-- The sketch retains what is in the set below its bound. -/
def Faithful (X : Set UInt64) (s : ThetaSketch) : Prop := IsBelow X s.thetaBound s.hashes

/-- What an operation takes a sketch for. -/
def counted (X : Set UInt64) (s : ThetaSketch) : Set UInt64 := if s.hashes = ∅ then ∅ else X

theorem counted_eq (h : s.hashes = ∅ → X = ∅) : counted X s = X := by
  unfold counted
  split_ifs with hempty
  · exact (h hempty).symm
  · rfl

/-- The resolved bound is the lower one of two bounds under which the operands are
samples of what they are taken for. -/
theorem exists_bounds (hl : Faithful X l) (hr : Faithful Y r) :
    ∃ b c, IsBelow (counted X l) b l.hashes ∧ IsBelow (counted Y r) c r.hashes ∧ (l.resolvedThreshold r).2 = min b c := by
  unfold counted resolvedThreshold
  by_cases hlempty : l.hashes = ∅ <;> by_cases hrempty : r.hashes = ∅
  · rw [if_pos hlempty, if_pos hrempty, if_pos hlempty, if_pos hrempty, hlempty, hrempty]
    exact ⟨maxHash, maxHash, .empty _, .empty _, (min_self _).symm⟩
  · rw [if_pos hlempty, if_neg hrempty, if_pos hlempty, if_neg hrempty, hlempty]
    exact ⟨r.thetaBound, r.thetaBound, .empty _, hr, (min_self _).symm⟩
  · rw [if_neg hlempty, if_pos hrempty, if_neg hlempty, if_pos hrempty, hrempty]
    exact ⟨l.thetaBound, l.thetaBound, hl, .empty _, (min_self _).symm⟩
  · rw [if_neg hlempty, if_neg hrempty, if_neg hlempty, if_neg hrempty]
    exact ⟨l.thetaBound, r.thetaBound, hl, hr, rfl⟩

/-! ## One operation -/

/-- The result is a sample of the sets that the operands are taken for. -/
structure Samples (seed : UInt16) (Z : Set UInt64) (result : Except SketchError ThetaSketch) (s : ThetaSketch) : Prop where
  ok : result = .ok s
  ofSeed : OfSeed seed s
  faithful : Faithful Z s

theorem trim_faithful (h : Faithful X s) : Faithful X (trim s) ∧ (trim s).druidOrigin = s.druidOrigin ∧
    (trim s).druidSeedHash = s.druidSeedHash := by
  obtain ⟨-, horigin, hseed, -⟩ := @trimLoop_fields s s.hashes.card
  have hself : IsSample s.maxSize s.hashes s.thetaBound s.hashes s.thetaBound := .self fun x hx => ((h x).1 hx).2
  exact ⟨h.of_isSample (trimLoop_spec hself le_rfl _ (Nat.le_add_left _ _)).1, horigin, hseed⟩

theorem union_samples (hl : OfSeed seed l) (hr : OfSeed seed r) (hlX : Faithful X l) (hrY : Faithful Y r) :
    ∃ s, Samples seed (counted X l ∪ counted Y r) (l.union r) s := by
  obtain ⟨seedHash, hseed, heq⟩ := union_eq hl.origin hr.origin hl.seeds hr.seeds
  obtain ⟨b, c, hb, hc, hbound⟩ := exists_bounds hlX hrY
  have huntrimmed : Faithful (counted X l ∪ counted Y r) ⟨(l.resolvedThreshold r).1, (l.resolvedThreshold r).2, max l.maxSize r.maxSize,
      (l.hashes ∪ r.hashes).filter (· < (l.resolvedThreshold r).2), true, seedHash⟩ := by
    rw [hbound]
    exact hb.union hc
  obtain ⟨hfaithful, horigin, htrimmed⟩ := trim_faithful huntrimmed
  refine ⟨_, heq, ⟨horigin, ?_⟩, hfaithful⟩
  rw [htrimmed]
  exact hseed

theorem intersect_samples (hl : OfSeed seed l) (hr : OfSeed seed r) (hlX : Faithful X l) (hrY : Faithful Y r) :
    ∃ s, Samples seed (counted X l ∩ counted Y r) (l.intersect r) s := by
  obtain ⟨seedHash, hseed, hidentity⟩ := resolvedIdentity_eq hl.origin hr.origin hl.seeds hr.seeds "intersect"
  obtain ⟨b, c, hb, hc, hbound⟩ := exists_bounds hlX hrY
  refine ⟨⟨(l.resolvedThreshold r).1, (l.resolvedThreshold r).2, max l.maxSize r.maxSize,
    l.hashes.filter fun h => h ∈ r.hashes ∧ h < (l.resolvedThreshold r).2, true, seedHash⟩, ?_, ⟨rfl, hseed⟩, ?_⟩
  · unfold intersect
    simp only [hidentity, ok_bind, belowThreshold, if_true, decide_eq_true_eq]
  · unfold Faithful
    rw [hbound]
    exact hb.inter hc

theorem difference_samples (hl : OfSeed seed l) (hr : OfSeed seed r) (hlX : Faithful X l) (hrY : Faithful Y r) :
    ∃ s, Samples seed (counted X l \ counted Y r) (l.difference r) s := by
  obtain ⟨seedHash, hseed, hidentity⟩ := resolvedIdentity_eq hl.origin hr.origin hl.seeds hr.seeds "difference"
  obtain ⟨b, c, hb, hc, hbound⟩ := exists_bounds hlX hrY
  refine ⟨⟨(l.resolvedThreshold r).1, (l.resolvedThreshold r).2, l.maxSize,
    l.hashes.filter fun h => h ∉ r.hashes ∧ h < (l.resolvedThreshold r).2, true, seedHash⟩, ?_, ⟨rfl, hseed⟩, ?_⟩
  · unfold difference
    simp only [hidentity, ok_bind, belowThreshold, if_true, decide_eq_true_eq]
  · unfold Faithful
    rw [hbound]
    exact hb.sdiff hc

inductive Operation where
  | union
  | intersect
  | difference

namespace Operation

def apply : Operation → ThetaSketch → ThetaSketch → Except SketchError ThetaSketch
  | union => ThetaSketch.union
  | intersect => ThetaSketch.intersect
  | difference => ThetaSketch.difference

def onSets : Operation → Set UInt64 → Set UInt64 → Set UInt64
  | union => (· ∪ ·)
  | intersect => (· ∩ ·)
  | difference => (· \ ·)

theorem apply_samples (op : Operation) (hl : OfSeed seed l) (hr : OfSeed seed r) (hlX : Faithful X l) (hrY : Faithful Y r) :
    ∃ s, Samples seed (op.onSets (counted X l) (counted Y r)) (op.apply l r) s := by
  cases op with
  | union => exact union_samples hl hr hlX hrY
  | intersect => exact intersect_samples hl hr hlX hrY
  | difference => exact difference_samples hl hr hlX hrY

end Operation

/-! ## Expressions -/

/-- Operations on sketches of sets, one inside the other. -/
inductive Expression where
  | operand (X : Set UInt64) (s : ThetaSketch)
  | apply (op : Operation) (left right : Expression)

namespace Expression

def result : Expression → Except SketchError ThetaSketch
  | operand _ s => .ok s
  | apply op left right => do
    let l ← left.result
    let r ← right.result
    op.apply l r

/-- The result on the sets. -/
def exact : Expression → Set UInt64
  | operand X _ => X
  | apply op left right => op.onSets left.exact right.exact

/-- The leaves are faithful sketches of one seed. -/
def Sampled (seed : UInt16) : Expression → Prop
  | operand X s => OfSeed seed s ∧ Faithful X s
  | apply _ left right => left.Sampled seed ∧ right.Sampled seed

/-- A sketch without hashes stands for the empty set. -/
def Counts (e : Expression) : Prop := ∀ s, e.result = .ok s → s.hashes = ∅ → e.exact = ∅

/-- Every operand counts. -/
def Settled : Expression → Prop
  | operand _ _ => True
  | apply _ left right => left.Counts ∧ right.Counts ∧ left.Settled ∧ right.Settled

/-- Every expression has a result, a sample of some set. -/
theorem result_samples {e : Expression} (he : e.Sampled seed) :
    ∃ s Z, Samples seed Z e.result s ∧ (e.Settled → Z = e.exact) := by
  induction e with
  | operand X s => exact ⟨s, X, ⟨rfl, he.1, he.2⟩, fun _ => rfl⟩
  | apply op left right ihl ihr =>
    obtain ⟨l, Z, hl, hleft⟩ := ihl he.1
    obtain ⟨r, W, hr, hright⟩ := ihr he.2
    obtain ⟨s, hs⟩ := op.apply_samples hl.ofSeed hr.ofSeed hl.faithful hr.faithful
    have hresult : (apply op left right).result = op.apply l r := by rw [result, hl.ok, hr.ok, ok_bind, ok_bind]
    refine ⟨s, _, ⟨hresult.trans hs.ok, hs.ofSeed, hs.faithful⟩, ?_⟩
    rintro ⟨hlcounts, hrcounts, hlsettled, hrsettled⟩
    rw [hleft hlsettled, hright hrsettled, counted_eq (hlcounts l hl.ok), counted_eq (hrcounts r hr.ok), exact]

end Expression

/-- An operation on faithful sketches samples its result on what they are taken for, so
on their sets exactly if that is the same below the bound. An expression does whose
operands without hashes stand for empty sets. -/
theorem operations_faithful (seed : UInt16) :
    (∀ (op : Operation) (X Y : Set UInt64) (l r : ThetaSketch), OfSeed seed l → OfSeed seed r → Faithful X l → Faithful Y r →
      ∃ s, op.apply l r = .ok s ∧ OfSeed seed s ∧ Faithful (op.onSets (counted X l) (counted Y r)) s ∧
        (Faithful (op.onSets X Y) s ↔ ∀ h, h < s.thetaBound → (h ∈ op.onSets X Y ↔ h ∈ op.onSets (counted X l) (counted Y r)))) ∧
    ∀ e : Expression, e.Sampled seed → ∃ s, e.result = .ok s ∧ OfSeed seed s ∧ (e.Settled → Faithful e.exact s) := by
  constructor
  · intro op X Y l r hl hr hlX hrY
    obtain ⟨s, hok, hs, hfaithful⟩ := op.apply_samples hl hr hlX hrY
    exact ⟨s, hok, hs, hfaithful, hfaithful.congr_iff⟩
  · intro e he
    obtain ⟨s, Z, hs, hexact⟩ := Expression.result_samples he
    exact ⟨s, hs.ok, hs.ofSeed, fun hsettled => hexact hsettled ▸ hs.faithful⟩

/-! ## Two sets with one element in common -/

/-- A sketch of size 4096 with an estimate of its own. -/
def estimating (thetaLong : Int64) (hash : UInt64) : ThetaSketch where
  theta := fraction thetaLong.toNatClampNeg 63
  thetaBound := druidThetaBound thetaLong
  maxSize := defaultMaxSize
  hashes := {hash}
  druidOrigin := true
  druidSeedHash := some 0x931E

theorem estimating_faithful {X : Set UInt64} {thetaLong : Int64} {hash : UInt64}
    (h : ∀ x, x = hash ↔ x ∈ X ∧ x < druidThetaBound thetaLong) : Faithful X (estimating thetaLong hash) :=
  fun x => Finset.mem_singleton.trans (h x)

theorem ofSeed_estimating (thetaLong : Int64) (hash : UInt64) : OfSeed 0x931E (estimating thetaLong hash) :=
  ⟨rfl, fun _ hx => (Option.some.inj hx).symm⟩

theorem faithful_shared {thetaLong : Int64} {hash : UInt64} (hbound : druidThetaBound thetaLong = 100) (hhash : hash < 100) :
    Faithful {hash, 200} (estimating thetaLong hash) := estimating_faithful fun x => by
  rw [hbound]
  constructor
  · rintro rfl
    exact ⟨.inl rfl, hhash⟩
  · rintro ⟨rfl | rfl, hx⟩
    · rfl
    · exact absurd hx (by decide)

theorem faithful_single : Faithful {300} (estimating maxThetaLong 300) := estimating_faithful fun x => by
  constructor
  · rintro rfl
    exact ⟨rfl, by decide⟩
  · exact fun hx => hx.1

/-- The two sets have in common what lies above the bounds of their sketches. The
intersection retains nothing, and a union with it forgets the common element. -/
def overlap : Expression :=
  .apply .union (.apply .intersect (.operand {10, 200} (estimating 50 10)) (.operand {20, 200} (estimating 50 20)))
    (.operand {300} (estimating maxThetaLong 300))

theorem overlap_unfaithful : overlap.Sampled 0x931E ∧ ∃ s, overlap.result = .ok s ∧ ¬ Faithful overlap.exact s := by
  have hsampled : overlap.Sampled 0x931E :=
    ⟨⟨⟨ofSeed_estimating _ _, faithful_shared (by decide) (by decide)⟩, ofSeed_estimating _ _, faithful_shared (by decide) (by decide)⟩,
      ofSeed_estimating _ _, faithful_single⟩
  refine ⟨hsampled, ?_⟩
  obtain ⟨s, _, hs, -⟩ := Expression.result_samples hsampled
  refine ⟨s, hs.ok, fun hfaithful => ?_⟩
  have hvalue : overlap.result.toOption.map (fun s => (s.hashes, s.thetaBound)) = some ({300}, 0xFFFFFFFFFFFFFFFE) := by decide +kernel
  rw [hs.ok] at hvalue
  obtain ⟨hhashes, hbound⟩ := Prod.mk.inj (Option.some.inj hvalue)
  have hmem := (hfaithful 200).2 ⟨.inl ⟨.inr rfl, .inr rfl⟩, by rw [hbound]; decide⟩
  rw [hhashes] at hmem
  exact absurd hmem (by decide)

/-- Without the intersection every operand retains a hash. -/
theorem operations_faithful_shared :
    (∃ s, (estimating 50 10).intersect (estimating 50 20) = .ok s ∧ Faithful ({10, 200} ∩ {20, 200}) s) ∧
    ∃ s, (Expression.apply .union (.operand {10, 200} (estimating 50 10)) (.operand {20, 200} (estimating 50 20))).result = .ok s ∧
      Faithful ({10, 200} ∪ {20, 200}) s := by
  obtain ⟨hoperation, hexpression⟩ := operations_faithful 0x931E
  have h10 : Faithful {10, 200} (estimating 50 10) := faithful_shared (by decide) (by decide)
  have h20 : Faithful {20, 200} (estimating 50 20) := faithful_shared (by decide) (by decide)
  constructor
  · obtain ⟨s, hok, -, hs, -⟩ := hoperation .intersect _ _ _ _ (ofSeed_estimating 50 10) (ofSeed_estimating 50 20) h10 h20
    exact ⟨s, hok, hs⟩
  · obtain ⟨s, hok, -, hs⟩ := hexpression (.apply .union (.operand _ (estimating 50 10)) (.operand _ (estimating 50 20)))
      ⟨⟨ofSeed_estimating _ _, h10⟩, ofSeed_estimating _ _, h20⟩
    have hcounts : ∀ (X : Set UInt64) hash, (Expression.operand X (estimating 50 hash)).Counts := by
      rintro X hash s ⟨⟩ hempty
      exact absurd hempty (Finset.singleton_ne_empty hash)
    exact ⟨s, hok, hs ⟨hcounts _ _, hcounts _ _, trivial, trivial⟩⟩

end ThetaSketch

end FerroDruid.Sketches
