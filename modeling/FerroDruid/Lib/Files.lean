import Mathlib.Data.List.Dedup
import Mathlib.Data.List.Infix
/-!
# A file system with crashes

Files and directories by absolute path. An operation either takes place or
fails, and a script of operations stops at the first that fails; a crash is a
script cut short. Renames are atomic. The support lists every path there is, so
that a directory can be read.
-/

namespace FerroDruid.Lib

open List

abbrev Path := List String

inductive Node where
  | dir
  | file (bytes : List UInt8)
  deriving DecidableEq, Repr

structure Files where
  node : Path → Option Node
  support : List Path
  mem_support : ∀ q, node q ≠ none → q ∈ support

/-- The files after an operation, and whether it succeeded. -/
abbrev FileOp := Files → Files × Bool

namespace Files

variable {fs fs' : Files} {p q r : Path}

def exists? (fs : Files) (p : Path) : Bool := (fs.node p).isSome

def empty : Files := ⟨fun _ => none, [], fun _ h => absurd rfl h⟩

/-- Strictly below. -/
def Below (p q : Path) : Prop := p <+: q ∧ q ≠ p

instance (p q : Path) : Decidable (Below p q) := inferInstanceAs (Decidable (_ ∧ _))

/-- Nothing stands in the directory. -/
def isEmptyDir (fs : Files) (p : Path) : Bool := fs.support.all fun q => decide (Below p q → fs.node q = none)

def put (p : Path) (node : Node) (fs : Files) : Files where
  node := fun q => if q = p then some node else fs.node q
  support := p :: fs.support
  mem_support := by
    intro q hq
    by_cases hqp : q = p
    · exact hqp ▸ List.mem_cons_self
    · rw [if_neg hqp] at hq
      exact List.mem_cons_of_mem _ (fs.mem_support q hq)

/-- Fails when a file is in the way. -/
def createDirAll (p : Path) : FileOp := fun fs =>
  if p.inits.all fun q => fs.node q = none ∨ fs.node q = some .dir then
    ({ node := fun q => if q <+: p ∧ fs.node q = none then some .dir else fs.node q
       support := p.inits ++ fs.support
       mem_support := by
        intro q hq
        by_cases hqp : q <+: p
        · exact List.mem_append_left _ ((List.mem_inits _ _).2 hqp)
        · rw [if_neg fun h => hqp h.1] at hq
          exact List.mem_append_right _ (fs.mem_support q hq) }, true)
  else (fs, false)

/-- Everything at or below `p`, apart from what could not be removed. -/
def removeAll (p : Path) (keep : Path → Bool) (fs : Files) : Files where
  node := fun q => if p <+: q ∧ keep q = false then none else fs.node q
  support := fs.support
  mem_support := by
    intro q hq
    split_ifs at hq with h
    · exact absurd rfl hq
    · exact fs.mem_support q hq

/-- `remove_dir_all`, with the result ignored. -/
def removeDirAll (p : Path) (keep : Path → Bool) : FileOp := fun fs => (fs.removeAll p keep, true)

/-- Remove every directory below `p`; a file directly in it stays. -/
def sweep (p : Path) (keep : Path → Bool) : FileOp := fun fs =>
  ({ node := fun q =>
      if Below p q ∧ fs.node (q.take (p.length + 1)) = some .dir ∧ keep q = false then none else fs.node q
     support := fs.support
     mem_support := by
      intro q hq
      split_ifs at hq with h
      · exact absurd rfl hq
      · exact fs.mem_support q hq }, true)

def createFile (p : Path) : FileOp := fun fs =>
  if fs.node p.dropLast = some .dir ∧ fs.node p ≠ some .dir then (fs.put p (.file []), true) else (fs, false)

def write (p : Path) (bytes : List UInt8) : FileOp := fun fs =>
  match fs.node p with
  | some (.file _) => (fs.put p (.file bytes), true)
  | _ => (fs, false)

/-- Move everything at or below `p` to `r`. -/
def move (p r : Path) (fs : Files) : Files where
  node := fun q => if r <+: q then fs.node (p ++ q.drop r.length) else if p <+: q then none else fs.node q
  support := fs.support ++ fs.support.map fun q => r ++ q.drop p.length
  mem_support := by
    intro q hq
    split_ifs at hq with hr hp
    · refine List.mem_append_right _ (List.mem_map.2 ⟨_, fs.mem_support _ hq, ?_⟩)
      rw [List.drop_left, List.prefix_iff_eq_append.1 hr]
    · exact absurd rfl hq
    · exact List.mem_append_left _ (fs.mem_support q hq)

/-- Onto a path that is free, or one file onto another. -/
def rename (p r : Path) : FileOp := fun fs =>
  match fs.node p, fs.node r with
  | some (.file _), some (.file _) => (fs.move p r, true)
  | some _, none => if fs.node r.dropLast = some .dir ∧ ¬ p <+: r then (fs.move p r, true) else (fs, false)
  | _, _ => (fs, false)

/-- Remove the directory `p` if it is there and empty; fail if it is not
empty. -/
def removeEmptyDir (p : Path) : FileOp := fun fs =>
  if fs.exists? p then if fs.isEmptyDir p then (fs.removeAll p fun q => decide (q ≠ p), true) else (fs, false)
  else (fs, true)

/-- The names in a directory. -/
def readDir (fs : Files) (p : Path) : List Path :=
  (fs.support.filter fun q => fs.exists? q && decide (p <+: q) && decide (q.length = p.length + 1)).dedup

/-! ## Scripts -/

/-- Run a script up to the first operation that fails. -/
def run : List FileOp → Files → Files × Bool
  | [], fs => (fs, true)
  | op :: ops, fs =>
    match op fs with
    | (fs', true) => run ops fs'
    | (fs', false) => (fs', false)

variable {ops : List FileOp}

theorem run_cons {op : FileOp} (h : run (op :: ops) fs = (fs', true)) :
    ∃ fs₁, op fs = (fs₁, true) ∧ run ops fs₁ = (fs', true) := by
  unfold run at h
  split at h
  · rename_i fs₁ ho
    exact ⟨fs₁, ho, h⟩
  · cases h

theorem run_singleton (op : FileOp) (fs : Files) : run [op] fs = op fs := by
  unfold run
  split
  · rename_i h
    exact h.symm
  · rename_i h
    exact h.symm

theorem run_append (ops ops' : List FileOp) (fs : Files) :
    run (ops ++ ops') fs = if (run ops fs).2 then run ops' (run ops fs).1 else run ops fs := by
  induction ops generalizing fs with
  | nil => rfl
  | cons op ops ih =>
    cases ho : op fs with
    | mk fs₁ ok =>
      cases ok with
      | true => simpa only [cons_append, run, ho] using ih fs₁
      | false => simp [run, ho]

/-- Both halves of a script that succeeded. -/
theorem run_append_true {ops' : List FileOp} (h : run (ops ++ ops') fs = (fs', true)) :
    ∃ fs₁, run ops fs = (fs₁, true) ∧ run ops' fs₁ = (fs', true) := by
  rw [run_append] at h
  split_ifs at h with hok
  · exact ⟨(run ops fs).1, Prod.ext rfl hok, h⟩
  · rw [h] at hok
    exact absurd rfl hok

/-- What every operation keeps, a script keeps, wherever it stops. -/
theorem run_inv (I : Files → Prop) (hop : ∀ op ∈ ops, ∀ fs, I fs → I (op fs).1) (h : I fs) :
    I (run ops fs).1 := by
  induction ops generalizing fs with
  | nil => exact h
  | cons op ops ih =>
    have hfirst := hop op mem_cons_self fs h
    unfold run
    split
    · rename_i fs₁ ho
      rw [ho] at hfirst
      exact ih (fun op' ho' => hop op' (mem_cons_of_mem _ ho')) hfirst
    · rename_i fs₁ ho
      rwa [ho] at hfirst

/-! ## What an operation touches -/

/-- The operation leaves every path of `S` as it is. -/
def Frames (S : Path → Prop) (op : FileOp) : Prop := ∀ fs q, S q → (op fs).1.node q = fs.node q

variable {S : Path → Prop}

theorem frames_createDirAll (h : ∀ q, S q → ¬ q <+: p) : Frames S (createDirAll p) := by
  intro fs q hq
  unfold createDirAll
  split_ifs
  · exact if_neg fun hp => h q hq hp.1
  · rfl

theorem frames_removeDirAll {keep : Path → Bool} (h : ∀ q, S q → ¬ p <+: q) : Frames S (removeDirAll p keep) :=
  fun _ q hq => if_neg fun hp => h q hq hp.1

theorem frames_sweep {keep : Path → Bool} (h : ∀ q, S q → ¬ p <+: q) : Frames S (sweep p keep) :=
  fun _ q hq => if_neg fun hp => h q hq hp.1.1

theorem node_put_of_ne {node : Node} (h : q ≠ p) : (fs.put p node).node q = fs.node q := if_neg h

theorem frames_createFile (h : ¬ S p) : Frames S (createFile p) := by
  intro fs q hq
  unfold createFile
  split_ifs
  · exact node_put_of_ne fun hp => h (hp ▸ hq)
  · rfl

theorem frames_write {bytes : List UInt8} (h : ¬ S p) : Frames S (write p bytes) := by
  intro fs q hq
  unfold write
  split
  · exact node_put_of_ne fun hp => h (hp ▸ hq)
  · rfl

theorem frames_rename (hp : ∀ q, S q → ¬ p <+: q) (hr : ∀ q, S q → ¬ r <+: q) : Frames S (rename p r) := by
  have hmove : ∀ (fs : Files) q, S q → (fs.move p r).node q = fs.node q := by
    intro fs q hq
    show (if r <+: q then _ else if p <+: q then none else fs.node q) = _
    rw [if_neg (hr q hq), if_neg (hp q hq)]
  intro fs q hq
  unfold rename
  split
  · exact hmove fs q hq
  · split_ifs
    · exact hmove fs q hq
    · rfl
  · rfl

theorem frames_removeEmptyDir (h : ¬ S p) : Frames S (removeEmptyDir p) := by
  intro fs q hq
  unfold removeEmptyDir
  split_ifs
  · refine if_neg fun hp => ?_
    have hqp : q = p := by simpa using hp.2
    exact h (hqp ▸ hq)
  · rfl
  · rfl

theorem run_frames (h : ∀ op ∈ ops, Frames S op) (hq : S q) : (run ops fs).1.node q = fs.node q :=
  run_inv (fun fs' => fs'.node q = fs.node q) (fun op ho fs' h' => (h op ho fs' q hq).trans h') rfl

/-! ## What an operation leaves -/

theorem node_of_createDirAll (h : createDirAll p fs = (fs', true)) : fs'.node p = some .dir := by
  unfold createDirAll at h
  split_ifs at h with hp
  · cases h
    have hself := all_eq_true.1 hp p ((mem_inits _ _).2 prefix_rfl)
    show (if p <+: p ∧ fs.node p = none then some Node.dir else fs.node p) = some .dir
    rcases of_decide_eq_true hself with hnone | hdir
    · rw [if_pos ⟨prefix_rfl, hnone⟩]
    · rw [if_neg (by simp [hdir]), hdir]
  · cases h

theorem node_of_createFile (h : createFile p fs = (fs', true)) :
    fs'.node p = some (.file []) ∧ ∀ q, q ≠ p → fs'.node q = fs.node q := by
  unfold createFile at h
  split_ifs at h
  · cases h
    exact ⟨if_pos rfl, fun q => node_put_of_ne⟩
  · cases h

theorem node_of_write {bytes : List UInt8} (h : write p bytes fs = (fs', true)) :
    fs'.node p = some (.file bytes) ∧ ∀ q, q ≠ p → fs'.node q = fs.node q := by
  unfold write at h
  split at h
  · cases h
    exact ⟨if_pos rfl, fun q => node_put_of_ne⟩
  · cases h

theorem files_of_rename_false (h : rename p r fs = (fs', false)) : fs' = fs := by
  unfold rename at h
  split at h
  · cases h
  · split_ifs at h
    · cases h
    · cases h
      rfl
  · cases h
    rfl

theorem node_of_rename (h : rename p r fs = (fs', true)) :
    (∀ s, fs'.node (r ++ s) = fs.node (p ++ s)) ∧ ∀ q, ¬ r <+: q → ¬ p <+: q → fs'.node q = fs.node q := by
  have hmove : fs' = fs.move p r := by
    unfold rename at h
    split at h
    · cases h
      rfl
    · split_ifs at h
      · cases h
        rfl
      · cases h
    · cases h
  subst hmove
  refine ⟨fun s => ?_, fun q hr hp => ?_⟩
  · show (if r <+: r ++ s then _ else _) = _
    rw [if_pos (prefix_append r s), drop_left]
  · show (if r <+: q then _ else if p <+: q then none else fs.node q) = _
    rw [if_neg hr, if_neg hp]

theorem mem_readDir {fs : Files} {p : Path} {name : String} (h : fs.node (p ++ [name]) ≠ none) :
    p ++ [name] ∈ fs.readDir p := by
  unfold readDir
  rw [mem_dedup, mem_filter]
  refine ⟨fs.mem_support _ h, ?_⟩
  simp [exists?, Option.isSome_iff_ne_none, h]

theorem of_mem_readDir {fs : Files} {p q : Path} (h : q ∈ fs.readDir p) :
    ∃ name, q = p ++ [name] ∧ fs.node q ≠ none := by
  unfold readDir at h
  rw [mem_dedup, mem_filter] at h
  simp only [exists?, Bool.and_eq_true, Option.isSome_iff_ne_none, decide_eq_true_eq] at h
  obtain ⟨-, ⟨hn, s, rfl⟩, hl⟩ := h
  rw [length_append] at hl
  obtain ⟨name, rfl⟩ := length_eq_one_iff.1 (show s.length = 1 by omega)
  exact ⟨name, rfl, hn⟩

end Files

end FerroDruid.Lib
