import Mathlib.Data.List.Basic
/-!
# Lines of a byte string

What a buffered reader makes of a file written line by line: cut at every
newline, one carriage return before it dropped, and the last piece returned
even when no newline ends it. `lines_flatMap` and `lines_torn` read back a
file of whole lines, and one whose last line lacks its newline.
-/

namespace FerroDruid.Lib

open List

/-- Cut at every newline; the piece after the last one counts when it is not
empty. -/
def splitLines : List UInt8 → List (List UInt8)
  | [] => []
  | b :: bs =>
    if b = 10 then [] :: splitLines bs
    else match splitLines bs with
      | [] => [[b]]
      | l :: ls => (b :: l) :: ls

/-- A line that ended in a newline also loses one carriage return before it. -/
def stripCr (l : List UInt8) : List UInt8 := if l.getLast? = some 13 then l.dropLast else l

/-- `BufRead::lines`. -/
def lines (bs : List UInt8) : List (List UInt8) :=
  let ls := splitLines bs
  if bs.getLast? = some 10 then ls.map stripCr else ls.dropLast.map stripCr ++ ls.getLast?.toList

/-- No byte of the line ends a line. -/
def CleanLine (l : List UInt8) : Prop := ∀ b ∈ l, b ≠ 10 ∧ b ≠ 13

instance (l : List UInt8) : Decidable (CleanLine l) := inferInstanceAs (Decidable (∀ b ∈ l, b ≠ 10 ∧ b ≠ 13))

variable {l : List UInt8}

theorem splitLines_line (h : CleanLine l) (rest : List UInt8) :
    splitLines (l ++ 10 :: rest) = l :: splitLines rest := by
  induction l with
  | nil => rfl
  | cons b l ih =>
    have hb : b ≠ 10 := (h b mem_cons_self).1
    have hl : CleanLine l := fun c hc => h c (mem_cons_of_mem _ hc)
    rw [cons_append, splitLines, if_neg hb, ih hl]

theorem splitLines_clean (h : CleanLine l) (hne : l ≠ []) : splitLines l = [l] := by
  induction l with
  | nil => exact absurd rfl hne
  | cons b l ih =>
    have hb : b ≠ 10 := (h b mem_cons_self).1
    have hl : CleanLine l := fun c hc => h c (mem_cons_of_mem _ hc)
    rw [splitLines, if_neg hb]
    cases l with
    | nil => rfl
    | cons c l => rw [ih hl (by simp)]

variable {ls : List (List UInt8)}

theorem splitLines_flatMap (h : ∀ l ∈ ls, CleanLine l) (rest : List UInt8) :
    splitLines (ls.flatMap (fun l => l ++ [10]) ++ rest) = ls ++ splitLines rest := by
  induction ls with
  | nil => rfl
  | cons l ls ih =>
    rw [flatMap_cons, append_assoc, append_assoc, singleton_append,
      splitLines_line (h l mem_cons_self), ih fun l' hl' => h l' (mem_cons_of_mem _ hl')]
    rfl

theorem stripCr_clean (h : CleanLine l) : stripCr l = l := by
  unfold stripCr
  split
  · next hl => exact absurd rfl (h 13 (mem_of_getLast? hl)).2
  · rfl

theorem map_stripCr (h : ∀ l ∈ ls, CleanLine l) : ls.map stripCr = ls := by
  have he : ls.map stripCr = ls.map id := map_congr_left fun l hl => stripCr_clean (h l hl)
  rw [he, map_id]

/-- A file of whole lines. -/
theorem lines_flatMap (h : ∀ l ∈ ls, CleanLine l) : lines (ls.flatMap fun l => l ++ [10]) = ls := by
  have hs : splitLines (ls.flatMap fun l => l ++ [10]) = ls := by
    have hs := splitLines_flatMap h []
    rwa [append_nil, splitLines, append_nil] at hs
  unfold lines
  simp only [hs]
  split
  · exact map_stripCr h
  · next hlast =>
    -- Only an empty file does not end in a newline.
    rcases eq_nil_or_concat ls with rfl | ⟨init, l, rfl⟩
    · rfl
    · exact absurd (by simp [flatMap_append]) hlast

/-- A file whose last line lacks its newline. -/
theorem lines_torn (h : ∀ l ∈ ls, CleanLine l) {tail : List UInt8} (ht : CleanLine tail)
    (hne : tail ≠ []) : lines (ls.flatMap (fun l => l ++ [10]) ++ tail) = ls ++ [tail] := by
  have hs : splitLines (ls.flatMap (fun l => l ++ [10]) ++ tail) = ls ++ [tail] := by
    rw [splitLines_flatMap h, splitLines_clean ht hne]
  have hlast : (ls.flatMap (fun l => l ++ [10]) ++ tail).getLast? ≠ some 10 := by
    rw [getLast?_append_of_ne_nil _ hne]
    intro hl
    exact absurd rfl (ht 10 (mem_of_getLast? hl)).1
  unfold lines
  simp only [hs]
  rw [if_neg hlast, dropLast_concat, getLast?_concat, map_stripCr h]
  rfl

end FerroDruid.Lib
