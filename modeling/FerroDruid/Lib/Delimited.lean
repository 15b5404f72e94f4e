import Mathlib.Data.List.Basic
/-!
# Delimited text

Text over any characters as rows of cells: a cell that holds the delimiter or a
quote stands in quotes, with its own quotes doubled, and a line ends in a newline or
in a carriage return and a newline.
-/

namespace FerroDruid.Lib

open List

variable {χ : Type} [DecidableEq χ]

/-! ## Lines -/

def stripLast (cr : χ) (line : List χ) : List χ := if line.getLast? = some cr then line.dropLast else line

/-- `str::lines`: the last piece is a line as it is, when it is not empty. -/
def textLines (nl cr : χ) (text : List χ) : List (List χ) :=
  let pieces := text.splitOn nl
  pieces.dropLast.map (stripLast cr) ++ pieces.getLast?.toList.filter (· ≠ [])

def endOfLine (nl cr : χ) (crlf : Bool) : List χ := if crlf then [cr, nl] else [nl]

variable {line : List χ}

theorem stripLast_of_notMem {cr : χ} (h : cr ∉ line) : stripLast cr line = line :=
  if_neg fun hlast => h (mem_of_getLast? hlast)

theorem splitOn_flatMap {nl : χ} {lines : List (List χ)} (h : ∀ line ∈ lines, nl ∉ line) :
    (lines.flatMap fun line => line ++ [nl]).splitOn nl = lines ++ [[]] := by
  induction lines with
  | nil => rfl
  | cons line lines ih =>
    obtain ⟨hline, hlines⟩ := forall_mem_cons.1 h
    rw [flatMap_cons, append_assoc, singleton_append, splitOn_append_cons_self_of_not_mem hline, ih hlines, cons_append]

/-- Whole lines are read as they were written. -/
theorem textLines_flatMap {nl cr : χ} (hne : cr ≠ nl) (crlf : Bool) {lines : List (List χ)} (h : ∀ line ∈ lines, nl ∉ line ∧ cr ∉ line) :
    textLines nl cr (lines.flatMap fun line => line ++ endOfLine nl cr crlf) = lines := by
  have hend : ∀ line : List χ, line ++ endOfLine nl cr crlf = (line ++ if crlf then [cr] else []) ++ [nl] := fun line => by
    cases crlf <;> simp [endOfLine]
  have hpieces : (lines.flatMap fun line => line ++ endOfLine nl cr crlf).splitOn nl =
    (lines.map fun line => line ++ if crlf then [cr] else []) ++ [[]] := by
    rw [← @splitOn_flatMap χ _ nl, flatMap_map]
    · simp only [hend]
    · intro line hline
      obtain ⟨line, hmem, rfl⟩ := mem_map.1 hline
      cases crlf <;> simp [(h line hmem).1, Ne.symm hne]
  have hstrip : ∀ line ∈ lines, stripLast cr (line ++ if crlf then [cr] else []) = line := fun line hline => by
    cases crlf with
    | true => simp [stripLast]
    | false => simpa using stripLast_of_notMem (h line hline).2
  have hall : lines.map (stripLast cr ∘ fun line => line ++ if crlf then [cr] else []) = lines :=
    (map_congr_left hstrip).trans (map_id lines)
  rw [textLines, hpieces, dropLast_concat, getLast?_concat, map_map, hall]
  simp

/-! ## Cells -/

/-- The cells from a place on, inside quotes or not, with what the cell has so far. -/
def splitQuotedLoop (quote delimiter : χ) : Bool → List χ → List χ → List (List χ)
  | _, cur, [] => [cur]
  | true, cur, c :: rest =>
    if c = quote then
      match rest with
      | d :: rest' =>
        if d = quote then splitQuotedLoop quote delimiter true (cur ++ [quote]) rest'
        else splitQuotedLoop quote delimiter false cur (d :: rest')
      | [] => [cur]
    else splitQuotedLoop quote delimiter true (cur ++ [c]) rest
  | false, cur, c :: rest =>
    if c = quote then splitQuotedLoop quote delimiter true cur rest
    else if c = delimiter then cur :: splitQuotedLoop quote delimiter false [] rest
    else splitQuotedLoop quote delimiter false (cur ++ [c]) rest

def splitQuoted (quote delimiter : χ) (line : List χ) : List (List χ) := splitQuotedLoop quote delimiter false [] line

def doubled (quote : χ) (cell : List χ) : List χ := cell.flatMap fun c => if c = quote then [quote, quote] else [c]

def writeCell (quote delimiter : χ) (cell : List χ) : List χ :=
  if delimiter ∈ cell ∨ quote ∈ cell then quote :: (doubled quote cell ++ [quote]) else cell

def writeLine (quote delimiter : χ) (cells : List (List χ)) : List χ := [delimiter].intercalate (cells.map (writeCell quote delimiter))

variable {quote delimiter : χ} {c : χ}

theorem splitQuotedLoop_inside (hc : c ≠ quote) (cur rest : List χ) :
    splitQuotedLoop quote delimiter true cur (c :: rest) = splitQuotedLoop quote delimiter true (cur ++ [c]) rest := by
  cases rest <;> simp [splitQuotedLoop, hc]

theorem splitQuotedLoop_escaped (cur rest : List χ) :
    splitQuotedLoop quote delimiter true cur (quote :: quote :: rest) = splitQuotedLoop quote delimiter true (cur ++ [quote]) rest := by
  simp [splitQuotedLoop]

omit [DecidableEq χ] in
theorem mem_intercalate {d : χ} {pieces : List (List χ)} (h : c ∈ [d].intercalate pieces) : c = d ∨ ∃ piece ∈ pieces, c ∈ piece := by
  induction pieces with
  | nil => exact nomatch h
  | cons piece pieces ih =>
    cases pieces with
    | nil => exact .inr ⟨piece, mem_cons_self, by simpa using h⟩
    | cons next pieces =>
      rw [intercalate_cons_of_ne_nil (cons_ne_nil _ _), mem_append, mem_append, mem_singleton] at h
      rcases h with (h | h) | h
      · exact .inr ⟨piece, mem_cons_self, h⟩
      · exact .inl h
      · exact (ih h).imp_right fun ⟨piece', hpiece, hc⟩ => ⟨piece', mem_cons_of_mem _ hpiece, hc⟩

omit [DecidableEq χ] in
theorem mem_intercalate_of_mem {d : χ} {pieces : List (List χ)} {piece : List χ} (hpiece : piece ∈ pieces) (hc : c ∈ piece) :
    c ∈ [d].intercalate pieces := by
  induction pieces with
  | nil => exact nomatch hpiece
  | cons first pieces ih =>
    cases pieces with
    | nil =>
      rw [mem_singleton.1 hpiece] at hc
      simpa using hc
    | cons next pieces =>
      rw [intercalate_cons_of_ne_nil (cons_ne_nil _ _), mem_append, mem_append]
      rcases mem_cons.1 hpiece with rfl | hpiece
      · exact .inl (.inl hc)
      · exact .inr (ih hpiece)

variable {cell : List χ}

theorem mem_doubled : c ∈ doubled quote cell ↔ c ∈ cell := by
  rw [doubled, mem_flatMap]
  constructor
  · rintro ⟨d, hd, h⟩
    split_ifs at h with hquote
    · have hc : c = d := by simpa [hquote] using h
      exact hc ▸ hd
    · exact mem_singleton.1 h ▸ hd
  · intro h
    refine ⟨c, h, ?_⟩
    split_ifs with hquote <;> simp [hquote]

theorem mem_writeCell (h : c ∈ writeCell quote delimiter cell) : c = quote ∨ c ∈ cell := by
  unfold writeCell at h
  split_ifs at h
  · rw [mem_cons, mem_append, mem_singleton, mem_doubled] at h
    tauto
  · exact .inr h

theorem mem_writeCell_of_mem (h : c ∈ cell) : c ∈ writeCell quote delimiter cell := by
  unfold writeCell
  split_ifs
  · exact mem_cons_of_mem _ (mem_append_left _ (mem_doubled.2 h))
  · exact h

variable {cells : List (List χ)}

/-- A character of a line is a delimiter, a quote, or a character of a cell. -/
theorem mem_writeLine (h : c ∈ writeLine quote delimiter cells) : c = delimiter ∨ c = quote ∨ ∃ cell ∈ cells, c ∈ cell := by
  rcases mem_intercalate h with rfl | ⟨piece, hpiece, hc⟩
  · exact .inl rfl
  · obtain ⟨cell, hcell, rfl⟩ := mem_map.1 hpiece
    exact .inr ((mem_writeCell hc).imp_right fun hc => ⟨cell, hcell, hc⟩)

theorem mem_writeLine_of_mem (hcell : cell ∈ cells) (hc : c ∈ cell) :
    c ∈ writeLine quote delimiter cells := mem_intercalate_of_mem (mem_map_of_mem hcell) (mem_writeCell_of_mem hc)

/-- Without quotes a scan is a split. -/
theorem splitQuotedLoop_plain (h : quote ∉ line) (cur : List χ) :
    splitQuotedLoop quote delimiter false cur line = (line.splitOn delimiter).modifyHead (cur ++ ·) := by
  induction line generalizing cur with
  | nil => simp [splitQuotedLoop]
  | cons c line ih =>
    obtain ⟨hc, hline⟩ := not_or.1 (mt mem_cons.2 h)
    rw [splitQuotedLoop, if_neg (Ne.symm hc), splitOn_cons_eq_if_modifyHead]
    by_cases hd : c = delimiter
    · rw [if_pos hd, if_pos (by simpa using hd), ih hline]
      cases line.splitOn delimiter <;> simp
    · rw [if_neg hd, if_neg (by simpa using hd), ih hline]
      cases line.splitOn delimiter <;> simp

theorem splitQuoted_plain (h : quote ∉ line) : splitQuoted quote delimiter line = line.splitOn delimiter := by
  rw [splitQuoted, splitQuotedLoop_plain h]
  cases line.splitOn delimiter <;> simp

/-- What may follow a cell. -/
def Stops (delimiter : χ) (rest : List χ) : Prop := rest = [] ∨ ∃ more, rest = delimiter :: more

/-- Inside quotes, up to the closing one. -/
theorem splitQuotedLoop_doubled (hne : delimiter ≠ quote) {rest : List χ} (hrest : Stops delimiter rest) (cell cur : List χ) :
    splitQuotedLoop quote delimiter true cur (doubled quote cell ++ quote :: rest) = splitQuotedLoop quote delimiter false (cur ++ cell) rest := by
  induction cell generalizing cur with
  | nil =>
    rcases hrest with rfl | ⟨more, rfl⟩
    · simp [doubled, splitQuotedLoop]
    · simp [doubled, splitQuotedLoop, hne]
  | cons c cell ih =>
    rw [doubled, flatMap_cons, ← doubled, append_assoc]
    by_cases hc : c = quote
    · subst hc
      rw [if_pos rfl, cons_append, singleton_append, splitQuotedLoop_escaped, ih, append_assoc, singleton_append]
    · rw [if_neg hc, singleton_append, splitQuotedLoop_inside hc, ih, append_assoc, singleton_append]

theorem splitQuotedLoop_writeCell (hne : delimiter ≠ quote) {rest : List χ} (hrest : Stops delimiter rest) (cell : List χ) :
    splitQuotedLoop quote delimiter false [] (writeCell quote delimiter cell ++ rest) = splitQuotedLoop quote delimiter false cell rest := by
  unfold writeCell
  split_ifs with hquoted
  · rw [cons_append, append_assoc, singleton_append, splitQuotedLoop, if_pos rfl, splitQuotedLoop_doubled hne hrest, nil_append]
  · obtain ⟨hdelimiter, hquote⟩ := not_or.1 hquoted
    have hplain : ∀ (bs cur : List χ), delimiter ∉ bs → quote ∉ bs →
        splitQuotedLoop quote delimiter false cur (bs ++ rest) = splitQuotedLoop quote delimiter false (cur ++ bs) rest := by
      intro bs
      induction bs with
      | nil => simp
      | cons b bs ih =>
        intro cur hd hq
        obtain ⟨hbd, hd⟩ := not_or.1 (mt mem_cons.2 hd)
        obtain ⟨hbq, hq⟩ := not_or.1 (mt mem_cons.2 hq)
        rw [cons_append, splitQuotedLoop, if_neg (Ne.symm hbq), if_neg (Ne.symm hbd), ih _ hd hq, append_assoc, singleton_append]
    exact hplain cell [] hdelimiter hquote

/-- The cells of a line are those it was written from. -/
theorem splitQuoted_writeLine (hne : delimiter ≠ quote) (hcells : cells ≠ []) :
    splitQuoted quote delimiter (writeLine quote delimiter cells) = cells := by
  induction cells with
  | nil => exact absurd rfl hcells
  | cons cell cells ih =>
    rw [splitQuoted, writeLine, map_cons]
    cases cells with
    | nil =>
      have hlast : splitQuotedLoop quote delimiter false [] (writeCell quote delimiter cell ++ []) = splitQuotedLoop quote delimiter false cell [] :=
        splitQuotedLoop_writeCell hne (.inl rfl) cell
      rw [append_nil] at hlast
      rw [map_nil, intercalate_singleton, hlast, splitQuotedLoop]
    | cons next cells =>
      rw [intercalate_cons_of_ne_nil (by simp), append_assoc, singleton_append,
        splitQuotedLoop_writeCell hne (.inr ⟨_, rfl⟩), splitQuotedLoop, if_neg hne, if_pos rfl]
      exact congrArg (cell :: ·) (ih (cons_ne_nil _ _))

end FerroDruid.Lib
