import FerroDruid.Segment.Writer
/-!
# What the v9 writer writes, the archive reader finds

The index trims its lines and lets the last of two equal names win. So a column
is found under its name unless the name begins with white space, and unless it
is the descriptor name of another column.
-/

namespace FerroDruid.Segment

open Lib List

variable {C : Type} {codec : ColumnCodec C} {segment : SegmentData C} {files : List (Bytes × Bytes)} {text : Bytes}
  {chunks : List Bytes} {name : Bytes} {data : Bytes} {pos : ℕ}

/-! ## Lines of the index -/

/-- A name that the index can hold. -/
structure IndexName (name : Bytes) : Prop where
  noComma : comma ∉ name
  clean : CleanLine name
  noSpace : ∀ t, ¬ StartsWithSpace (name ++ t)

theorem cleanLine_decimal (n : ℕ) : CleanLine (decimal n) := by
  intro b hb
  have hd := isDigit_of_mem_decimal hb
  constructor
  · rintro rfl
    exact absurd hd (by decide)
  · rintro rfl
    exact absurd hd (by decide)

theorem comma_not_mem_decimal (n : ℕ) : comma ∉ decimal n :=
  fun h => absurd (isDigit_of_mem_decimal h) (by decide)

theorem metaLine_eq (name : Bytes) (start stop : ℕ) :
    metaLine name start stop = name ++ (comma :: (decimal 0 ++ comma :: (decimal start ++ comma :: decimal stop))) := by
  simp [metaLine]

theorem cleanLine_metaLine (h : CleanLine name) (start stop : ℕ) : CleanLine (metaLine name start stop) := by
  intro b hb
  simp only [metaLine_eq, mem_append, mem_cons] at hb
  rcases hb with hb | rfl | hb | rfl | hb | rfl | hb
  · exact h b hb
  · decide
  · exact cleanLine_decimal _ b hb
  · decide
  · exact cleanLine_decimal _ b hb
  · decide
  · exact cleanLine_decimal _ b hb

/-- A line ends with a digit, so only its beginning could be trimmed. -/
theorem trim_metaLine (h : IndexName name) (start stop : ℕ) : trim (metaLine name start stop) = metaLine name start stop := by
  have hstart : trimStart (metaLine name start stop) = metaLine name start stop := by
    rw [metaLine_eq]
    exact trimStart_of_not_space (h.noSpace _)
  obtain ⟨b, hb⟩ : ∃ b, (decimal stop).getLast? = some b :=
    Option.ne_none_iff_exists'.1 (by simpa using decimal_ne_nil stop)
  have hlast : (metaLine name start stop).getLast? = some b := by
    simp only [metaLine, getLast?_append_cons, getLast?_cons]
    rw [hb]
    rfl
  rw [trim, hstart]
  exact trimEnd_of_digit hlast (isDigit_of_mem_decimal (mem_of_getLast? hb))

theorem parseEntry_metaLine (h : comma ∉ name) {start stop : ℕ} (hstart : start < 2 ^ 64) (hstop : stop < 2 ^ 64) :
    parseEntry (metaLine name start stop) = .ok (name, ⟨0, start, stop⟩) := by
  have hsplit : (metaLine name start stop).splitOn comma = [name, decimal 0, decimal start, decimal stop] := by
    rw [metaLine_eq]
    simp only [splitOn_append_cons_self, splitOn_eq_singleton h, splitOn_eq_singleton (comma_not_mem_decimal _)]
    rfl
  unfold parseEntry
  rw [hsplit]
  simp only [number, parseUsize_decimal (show 0 < 2 ^ 64 by omega), parseUsize_decimal hstart, parseUsize_decimal hstop]
  rfl

/-! ## The entries -/

/-- What the index says about files stored from `start` on. -/
def insertFiles : ℕ → List (Bytes × Bytes) → HashMap Bytes SmooshEntry → HashMap Bytes SmooshEntry
  | _, [], m => m
  | start, (name, data) :: files, m =>
    insertFiles (start + data.length) files (m.insert name ⟨0, start, start + data.length⟩)

theorem parseEntries_written {declared start maxChunk : ℕ} {entries : HashMap Bytes SmooshEntry}
    (hnames : ∀ f ∈ files, IndexName f.1) (hsize : start + (files.flatMap (·.2)).length < 2 ^ 64)
    (hcount : entries.keys.length + files.length ≤ maxSmooshEntries) :
    ∃ maxChunk', parseEntries declared (metaEntries start files) maxChunk entries = .ok (maxChunk', insertFiles start files entries) := by
  induction files generalizing start maxChunk entries with
  | nil => exact ⟨maxChunk, rfl⟩
  | cons f files ih =>
    obtain ⟨name, data⟩ := f
    obtain ⟨hname, hnames⟩ := forall_mem_cons.1 hnames
    simp only [flatMap_cons, length_append] at hsize
    rw [length_cons] at hcount
    have hkeys := HashMap.length_keys_insert entries name ⟨0, start, start + data.length⟩
    obtain ⟨maxChunk', hrest⟩ := @ih (start + data.length) (max maxChunk 1)
      (entries.insert name ⟨0, start, start + data.length⟩) hnames (by omega) (by omega)
    refine ⟨maxChunk', ?_⟩
    have hne : metaLine name start (start + data.length) ≠ [] := by simp [metaLine]
    rw [metaEntries, parseEntries, trim_metaLine hname, if_neg hne, parseEntry_metaLine hname.noComma (by omega) (by omega), ok_bind]
    have hcap : ¬ maxSmooshEntries < (entries.insert name ⟨0, start, start + data.length⟩).keys.length := by omega
    show (if maxSmooshEntries < (entries.insert name ⟨0, start, start + data.length⟩).keys.length then _ else _ : Except _ _) = _
    rw [if_neg hcap]
    exact hrest

theorem lookup_insertFiles_of_not_mem {start : ℕ} {m : HashMap Bytes SmooshEntry} (h : name ∉ files.map (·.1)) :
    (insertFiles start files m).lookup name = m.lookup name := by
  induction files generalizing start m with
  | nil => rfl
  | cons f files ih =>
    rw [map_cons, mem_cons, not_or] at h
    rw [insertFiles, ih h.2, AList.lookup_insert_ne h.1]

/-- With no two names equal, every file is found where it was stored. -/
theorem lookup_insertFiles {start : ℕ} {m : HashMap Bytes SmooshEntry} {chunk : Bytes} (hnodup : (files.map (·.1)).Nodup)
    (hchunk : At chunk start (files.flatMap (·.2))) (hend : start + (files.flatMap (·.2)).length ≤ chunk.length) :
    ∀ f ∈ files, ∃ s, (insertFiles start files m).lookup f.1 = some ⟨0, s, s + f.2.length⟩ ∧ At chunk s f.2 ∧
      s + f.2.length ≤ chunk.length := by
  induction files generalizing start m with
  | nil => nofun
  | cons f files ih =>
    obtain ⟨name', data'⟩ := f
    rw [map_cons, nodup_cons] at hnodup
    simp only [flatMap_cons, length_append] at hchunk hend
    obtain ⟨hfirst, hrest⟩ := At.append_iff.1 hchunk
    refine forall_mem_cons.2 ⟨⟨start, ?_, hfirst, show start + data'.length ≤ _ by omega⟩, ?_⟩
    · rw [insertFiles, lookup_insertFiles_of_not_mem hnodup.1, AList.lookup_insert]
    · rw [insertFiles]
      exact ih hnodup.2 hrest (by omega)

/-! ## The archive -/

theorem intercalate_newline (ls : List Bytes) (l : Bytes) : [newline].intercalate (ls ++ [l]) = ls.flatMap (· ++ [newline]) ++ l := by
  induction ls with
  | nil => simp
  | cons l' ls ih =>
    cases ls with
    | nil => simp
    | cons l'' ls => simpa using ih

theorem checkedChunkSize_ok {running : ℕ} {lens : List ℕ} {total : ℕ} (h : checkedChunkSize running lens = .ok total) :
    total = running + lens.sum ∧ (lens ≠ [] → total ≤ smooshMaxChunkSize) := by
  induction lens generalizing running with
  | nil =>
    cases h
    exact ⟨rfl, nofun⟩
  | cons len lens ih =>
    unfold checkedChunkSize at h
    split_ifs at h with hlarge
    obtain ⟨htotal, hle⟩ := ih h
    rw [sum_cons]
    refine ⟨by omega, fun _ => ?_⟩
    cases lens with
    | nil =>
      rw [htotal, sum_nil]
      omega
    | cons len' lens => exact hle (cons_ne_nil _ _)

/-- The parts of an archive that could be written. -/
theorem finish_ok (h : finish files = .ok (text, chunks)) :
    files.length ≤ maxSmooshEntries ∧ (files.flatMap (·.2)).length < 2 ^ 64 ∧
      text = [newline].intercalate (metaHeader files.length :: metaEntries 0 files) ∧ chunks = [files.flatMap (·.2)] := by
  unfold finish at h
  split_ifs at h with hmany
  · cases h
  · obtain ⟨total, hsize, h⟩ := bind_eq_ok.1 h
    cases h
    obtain ⟨htotal, hle⟩ := checkedChunkSize_ok hsize
    have hlen : (files.flatMap (·.2)).length = total := by
      rw [htotal, length_flatMap]
      simp
    refine ⟨by omega, ?_, rfl, rfl⟩
    cases files with
    | nil => simp
    | cons f files =>
      have hmax := hle (by simp)
      unfold smooshMaxChunkSize at hmax
      omega

theorem metaEntries_concat (start : ℕ) (hne : files ≠ []) :
    ∃ ls name' s e, metaEntries start files = ls ++ [metaLine name' s e] := by
  induction files generalizing start with
  | nil => exact absurd rfl hne
  | cons f files ih =>
    obtain ⟨name', data'⟩ := f
    cases files with
    | nil => exact ⟨[], name', _, _, rfl⟩
    | cons f files =>
      obtain ⟨ls, n, s, e, hls⟩ := ih (start + data'.length) (cons_ne_nil _ _)
      exact ⟨_ :: ls, n, s, e, by rw [metaEntries, hls]; rfl⟩

theorem cleanLine_metaEntries {start : ℕ} (h : ∀ f ∈ files, CleanLine f.1) : ∀ l ∈ metaEntries start files, CleanLine l := by
  induction files generalizing start with
  | nil => nofun
  | cons f files ih =>
    obtain ⟨hf, h⟩ := forall_mem_cons.1 h
    exact forall_mem_cons.2 ⟨cleanLine_metaLine hf _ _, ih h⟩

theorem cleanLine_metaHeader (n : ℕ) : CleanLine (metaHeader n) := by
  intro b hb
  simp only [metaHeader, mem_append, mem_cons] at hb
  rcases hb with (hb | rfl | hb) | rfl | hb
  · rw [ascii, String.toList_ofList] at hb
    have hclean : CleanLine [118, 49] := by simp [CleanLine]
    exact hclean b hb
  · decide
  · exact cleanLine_decimal _ b hb
  · decide
  · exact cleanLine_decimal _ b hb

/-- The index splits into the lines it was joined from. -/
theorem lines_written (h : ∀ f ∈ files, CleanLine f.1) (hne : files ≠ []) :
    lines ([newline].intercalate (metaHeader files.length :: metaEntries 0 files)) = metaHeader files.length :: metaEntries 0 files := by
  obtain ⟨ls, name', s, e, hls⟩ := metaEntries_concat 0 hne
  have hclean := @cleanLine_metaEntries files 0 h
  rw [hls] at hclean ⊢
  rw [← cons_append, intercalate_newline]
  refine lines_torn (fun l hl => ?_) (hclean _ (by simp)) (by simp [metaLine])
  rcases mem_cons.1 hl with rfl | hl
  · exact cleanLine_metaHeader _
  · exact hclean l (by simp [hl])

/-- An archive of distinct names that the index can hold opens, and every file
is found. -/
theorem fromParts_written (hnames : ∀ f ∈ files, IndexName f.1) (hnodup : (files.map (·.1)).Nodup) (hne : files ≠ [])
    (h : finish files = .ok (text, chunks)) :
    ∃ r, fromParts text chunks = .ok r ∧ ∀ f ∈ files, r.readFile f.1 = .ok f.2 := by
  obtain ⟨hcount, hsize, rfl, rfl⟩ := finish_ok h
  obtain ⟨maxChunk, hentries⟩ := @parseEntries_written files files.length 0 0 ∅ hnames (by omega) (by simpa using hcount)
  refine ⟨⟨insertFiles 0 files ∅, [files.flatMap (·.2)], ∅⟩, ?_, fun f hf => ?_⟩
  · have hheader : (metaHeader files.length).splitOn comma = [ascii "v1", decimal smooshMaxChunkSize, decimal files.length] := by
      unfold metaHeader
      simp only [append_assoc, cons_append, splitOn_append_cons_self,
        splitOn_eq_singleton (comma_not_mem_decimal _)]
      rfl
    have hcount64 : files.length < 2 ^ 64 := by
      unfold maxSmooshEntries at hcount
      omega
    have hmeta : parseMeta ([newline].intercalate (metaHeader files.length :: metaEntries 0 files)) =
        .ok (smooshMaxChunkSize, if (insertFiles 0 files ∅).keys.isEmpty then 0 else maxChunk, insertFiles 0 files ∅) := by
      unfold parseMeta
      rw [lines_written (fun f hf => (hnames f hf).clean) hne]
      simp only
      rw [hheader]
      simp only [number, parseUsize_decimal (show smooshMaxChunkSize < 2 ^ 64 by decide), parseUsize_decimal hcount64]
      rw [if_neg (by simp), ok_bind, ok_bind, if_neg (by omega), hentries]
      rfl
    unfold fromParts
    rw [hmeta]
    rfl
  · obtain ⟨s, hlookup, hat, hend⟩ := lookup_insertFiles (m := ∅) hnodup
      (show At (files.flatMap (·.2)) 0 (files.flatMap (·.2)) from prefix_rfl) (by omega) f hf
    unfold SmooshReader.readFile
    simp only [hlookup]
    show (if s + f.2.length < s then _ else _) = _
    rw [if_neg (by omega), if_neg (by omega), Nat.add_sub_cancel_left, hat.take_eq]

/-! ## Names the index cannot return -/

theorem parseEntry_name {line : Bytes} {entry : SmooshEntry} (h : parseEntry line = .ok (name, entry)) : name <+: line := by
  unfold parseEntry at h
  split at h
  · rename_i name' fileNumber start stop rest hsplit
    obtain ⟨fileNumber', -, h⟩ := bind_eq_ok.1 h
    split_ifs at h
    · cases h
    obtain ⟨start', -, h⟩ := bind_eq_ok.1 h
    obtain ⟨stop', -, h⟩ := bind_eq_ok.1 h
    cases h
    have hjoin : List.intercalate [comma] (line.splitOn comma) = line := intercalate_splitOn comma
    rw [hsplit, intercalate_cons_cons, append_assoc] at hjoin
    exact ⟨_, hjoin⟩
  · cases h

theorem parseEntries_space {declared maxChunk : ℕ} {ls : List Bytes} {entries entries' : HashMap Bytes SmooshEntry} {maxChunk' : ℕ}
    (hkeys : ∀ k, entries.lookup k ≠ none → ¬ StartsWithSpace k) (h : parseEntries declared ls maxChunk entries = .ok (maxChunk', entries')) :
    ∀ k, entries'.lookup k ≠ none → ¬ StartsWithSpace k := by
  induction ls generalizing maxChunk entries with
  | nil =>
    cases h
    exact hkeys
  | cons line ls ih =>
    unfold parseEntries at h
    split_ifs at h with hblank
    · exact ih hkeys h
    · obtain ⟨⟨name', entry⟩, hparse, h⟩ := bind_eq_ok.1 h
      simp only at h
      split_ifs at h with hcap
      · cases h
      refine ih (fun k hk => ?_) h
      by_cases hkn : k = name'
      · subst hkn
        exact fun hs => not_space_trim line (hs.mono (parseEntry_name hparse))
      · rw [AList.lookup_insert_ne hkn] at hk
        exact hkeys k hk

/-- No archive has an entry whose name begins with white space. -/
theorem readFile_of_space {r : SmooshReader} (h : fromParts text chunks = .ok r) (hs : StartsWithSpace name) :
    r.readFile name = .error (.fileNotFound name) := by
  obtain ⟨⟨_, _, entries⟩, hmeta, hr⟩ := bind_eq_ok.1 h
  cases hr
  have hnone : entries.lookup name = none := by
    by_contra hsome
    unfold parseMeta at hmeta
    split at hmeta
    · cases hmeta
    split at hmeta
    · split_ifs at hmeta
      · cases hmeta
      obtain ⟨_, -, hmeta⟩ := bind_eq_ok.1 hmeta
      obtain ⟨_, -, hmeta⟩ := bind_eq_ok.1 hmeta
      split_ifs at hmeta
      · cases hmeta
      obtain ⟨⟨_, entries'⟩, hentries, hmeta⟩ := bind_eq_ok.1 hmeta
      cases hmeta
      exact parseEntries_space (fun k hk => absurd rfl hk) hentries name hsome hs
    · cases hmeta
  unfold SmooshReader.readFile
  simp only [hnone]
  rfl

/-! ## The index of columns -/

theorem readBe_written {w n : ℕ} (hw : 0 < w) (h : At data pos (beBytes w n)) :
    readBe data w pos = .ok (n % 256 ^ w, pos + w) := by
  have hlen := h.length_le (ne_nil_of_length_pos (by simpa using hw))
  rw [length_beBytes] at hlen
  unfold readBe
  rw [if_neg (by omega), beAt_of_at h]

theorem readLengthPrefixedString_written {s : Utf8} (hlen : s.bytes.length ≤ 65535) (h : At data pos (lengthPrefixed s)) :
    readLengthPrefixedString data pos = .ok (s, pos + (lengthPrefixed s).length) := by
  obtain ⟨hplen, hbytes⟩ := At.append_iff.1 h
  have hend := h.length_le (by simp [lengthPrefixed, beBytes, leBytes])
  simp only [lengthPrefixed, length_append, length_beBytes] at hend hbytes ⊢
  have hmod : s.bytes.length % 256 ^ 2 = s.bytes.length := Nat.mod_eq_of_lt (by omega)
  unfold readLengthPrefixedString
  rw [readBe_written (by omega) hplen, ok_bind]
  simp only [hmod]
  rw [if_neg (by omega), hbytes.take_eq, Utf8.ofBytes?_bytes]
  simp only [pure, Except.pure, Nat.add_assoc]

theorem readStrings_written {names : List Utf8} (hlens : ∀ s ∈ names, s.bytes.length ≤ 65535)
    (h : At data pos (names.flatMap lengthPrefixed)) :
    readStrings data names.length pos = .ok (names, pos + (names.flatMap lengthPrefixed).length) := by
  induction names generalizing pos with
  | nil => rfl
  | cons s names ih =>
    obtain ⟨hs, hlens⟩ := forall_mem_cons.1 hlens
    obtain ⟨hfirst, hrest⟩ := At.append_iff.1 h
    rw [length_cons, readStrings, readLengthPrefixedString_written hs hfirst, ok_bind]
    simp only
    rw [ih hlens hrest, ok_bind]
    simp only [pure, Except.pure, flatMap_cons, length_append, Nat.add_assoc]

theorem readMillis_written {t : Int64} (h : At data pos (millis t)) : readMillis data pos = (t, pos + 8) := by
  have hend := h.length_le (ne_nil_of_length_pos (by simp [millis]))
  rw [millis, length_beBytes] at hend
  have hlt : t.toBitVec.toNat < 256 ^ 8 := t.toBitVec.isLt
  unfold readMillis
  rw [if_pos hend, beAt_of_at h, Nat.mod_eq_of_lt hlt]
  simp

/-- The index reads back as the lists and the interval it was written from. -/
theorem parseIndexDrd_written (native : Bytes → Except IndexError IndexDrd) {dimensions metrics : List Utf8} (interval : Interval)
    (hdims : dimensions.length ≤ maxDimensions) (hmets : metrics.length ≤ maxMetrics)
    (hlens : ∀ s ∈ dimensions ++ metrics, s.bytes.length ≤ 65535) :
    parseIndexDrd native (encodeIndexDrd dimensions metrics interval) = .ok ⟨dimensions, metrics, interval⟩ := by
  obtain ⟨hdimLens, hmetLens⟩ := forall_mem_append.1 hlens
  unfold maxDimensions at hdims
  unfold maxMetrics at hmets
  obtain ⟨data, hdata⟩ : ∃ data, data = encodeIndexDrd dimensions metrics interval := ⟨_, rfl⟩
  have h : At data 0 (encodeIndexDrd dimensions metrics interval) := by
    rw [hdata]
    exact prefix_rfl
  rw [← hdata]
  obtain ⟨h, -⟩ := At.append_iff.1 h
  obtain ⟨h, hstop⟩ := At.append_iff.1 h
  obtain ⟨h, hstart⟩ := At.append_iff.1 h
  obtain ⟨h, hmetrics⟩ := At.append_iff.1 h
  obtain ⟨h, hnumMetrics⟩ := At.append_iff.1 h
  obtain ⟨h, hdimensions⟩ := At.append_iff.1 h
  obtain ⟨hversion, hnumDims⟩ := At.append_iff.1 h
  simp only [length_append, length_beBytes, millis, Nat.zero_add, ← Nat.add_assoc] at hstop hstart hmetrics hnumMetrics hdimensions hnumDims
  unfold parseIndexDrd
  rw [readBe_written (by omega) hversion, ok_bind]
  simp only [Nat.zero_add]
  rw [if_neg (by decide), readBe_written (by omega) hnumDims, ok_bind]
  simp only [Nat.mod_eq_of_lt (show dimensions.length < 256 ^ 4 by omega)]
  rw [if_neg (by unfold maxDimensions; omega), readStrings_written hdimLens hdimensions, ok_bind]
  rw [readBe_written (by omega) hnumMetrics, ok_bind]
  simp only [Nat.mod_eq_of_lt (show metrics.length < 256 ^ 4 by omega)]
  rw [if_neg (by unfold maxMetrics; omega), readStrings_written hmetLens hmetrics, ok_bind]
  rw [readMillis_written hstart]
  rw [readMillis_written hstop]
  rfl

/-! ## The writer -/

theorem validateSmooshEntryName_ok {n : Utf8} (h : validateSmooshEntryName n = .ok ()) :
    n.bytes ≠ [] ∧ n.bytes ∉ reservedSegmentEntryNames ∧ comma ∉ n.bytes ∧ CleanLine n.bytes := by
  unfold validateSmooshEntryName at h
  split_ifs at h with hempty hreserved hchars
  simp only [not_or] at hchars
  refine ⟨hempty, hreserved, hchars.1, fun b hb => ⟨?_, ?_⟩⟩
  · rintro rfl
    exact hchars.2.1 hb
  · rintro rfl
    exact hchars.2.2.1 hb

theorem validateColumnNames_ok {seen names : List Utf8} (h : validateColumnNames seen names = .ok ()) :
    (∀ n ∈ names, validateSmooshEntryName n = .ok () ∧ n.bytes.length ≤ 65535 ∧ n ∉ seen) ∧ names.Nodup := by
  induction names generalizing seen with
  | nil => exact ⟨nofun, nodup_nil⟩
  | cons n names ih =>
    unfold validateColumnNames at h
    split at h
    · cases h
    rename_i hn
    split_ifs at h with hlong hdup
    obtain ⟨hall, hnodup⟩ := ih h
    refine ⟨forall_mem_cons.2 ⟨⟨hn, by omega, hdup⟩, fun m hm => ?_⟩, nodup_cons.2 ⟨fun hm => ?_, hnodup⟩⟩
    · obtain ⟨hvalid, hlen, hseen⟩ := hall m hm
      exact ⟨hvalid, hlen, fun hs => hseen (mem_cons_of_mem _ hs)⟩
    · exact (hall n hm).2.2 mem_cons_self

theorem collectNames_ok {columns : HashMap Utf8 C} {missing : Utf8 → WriteError} {names names' : List Utf8}
    (h : collectNames columns missing names = .ok names') : names' = names.filter (· ≠ timeColumn) := by
  induction names generalizing names' with
  | nil =>
    cases h
    rfl
  | cons n names ih =>
    unfold collectNames at h
    split_ifs at h with htime hnone
    · rw [ih h, filter_cons_of_neg (by simpa using htime)]
    · obtain ⟨rest, hrest, h⟩ := bind_eq_ok.1 h
      cases h
      rw [ih hrest, filter_cons_of_pos (by simpa using htime)]

/-- The columns of the archive. -/
def archiveNames (segment : SegmentData C) : List Utf8 :=
  timeColumn :: (segment.dimensions ++ segment.metrics).filter (· ≠ timeColumn)

theorem columnNames_ok {names : List Utf8} (htime : segment.columns.lookup timeColumn ≠ none)
    (h : columnNames segment = .ok names) : names = archiveNames segment := by
  obtain ⟨dimensions, hdims, h⟩ := bind_eq_ok.1 h
  obtain ⟨metrics, hmets, h⟩ := bind_eq_ok.1 h
  cases h
  rw [if_neg htime, collectNames_ok hdims, collectNames_ok hmets, archiveNames, filter_append]
  rfl

theorem columnFiles_ok {columns : HashMap Utf8 C} {names : List Utf8} (h : columnFiles codec columns names = .ok files) :
    files.map (·.1) = names.flatMap (fun n => [descriptorName n, n.bytes]) ∧
      ∀ n ∈ names, ∃ column bytes, columns.lookup n = some column ∧ codec.encode column = some bytes ∧
        (descriptorName n, descriptorJson (columnDescriptorFor (codec.kind column))) ∈ files ∧ (n.bytes, bytes) ∈ files := by
  induction names generalizing files with
  | nil =>
    cases h
    exact ⟨rfl, nofun⟩
  | cons n names ih =>
    unfold columnFiles at h
    split at h
    · cases h
    · rename_i column hcolumn
      split at h
      · cases h
      · rename_i bytes hbytes
        obtain ⟨rest, hrest, h⟩ := bind_eq_ok.1 h
        cases h
        obtain ⟨hmap, hall⟩ := ih hrest
        refine ⟨by simp [hmap], forall_mem_cons.2 ⟨⟨column, bytes, hcolumn, hbytes, by simp, by simp⟩, fun m hm => ?_⟩⟩
        obtain ⟨column', bytes', hc, hb, hd, hm'⟩ := hall m hm
        exact ⟨column', bytes', hc, hb, by simp [hd], by simp [hm']⟩

/-- Everything a successful build says. -/
theorem buildSmooshWriter_ok (htime : segment.columns.lookup timeColumn ≠ none)
    (h : buildSmooshWriter codec segment = .ok files) :
    validateColumnNames [] (segment.dimensions ++ segment.metrics) = .ok () ∧
      ∃ columns, columnFiles codec segment.columns (archiveNames segment) = .ok columns ∧
        files = (versionBin, beBytes 4 9) :: (indexDrd, encodeIndexDrd segment.dimensions segment.metrics segment.interval) :: columns := by
  obtain ⟨⟨⟩, hvalid, h⟩ := bind_eq_ok.1 h
  obtain ⟨names, hnames, h⟩ := bind_eq_ok.1 h
  obtain ⟨columns, hcolumns, h⟩ := bind_eq_ok.1 h
  cases h
  rw [columnNames_ok htime hnames] at hcolumns
  exact ⟨hvalid, columns, hcolumns, rfl⟩

/-! ## Reopening -/

/-- The column names that the archive can hold apart: none begins with white
space, none is the descriptor name of a column. -/
def NamesSafe (segment : SegmentData C) : Prop :=
  ∀ n ∈ timeColumn :: (segment.dimensions ++ segment.metrics), ¬ StartsWithSpace n.bytes ∧
    ∀ m ∈ timeColumn :: (segment.dimensions ++ segment.metrics), m.bytes ≠ descriptorName n

instance (segment : SegmentData C) : Decidable (NamesSafe segment) :=
  inferInstanceAs (Decidable (∀ n ∈ timeColumn :: (segment.dimensions ++ segment.metrics), ¬ StartsWithSpace n.bytes ∧
    ∀ m ∈ timeColumn :: (segment.dimensions ++ segment.metrics), m.bytes ≠ descriptorName n))

/-- The reopened archive has the control files, the index parses to the
segment's, every column has its descriptor and data, and no entry shadows
another. -/
structure Reopens (codec : ColumnCodec C) (segment : SegmentData C) (native : Bytes → Except IndexError IndexDrd)
    (files : List (Bytes × Bytes)) (r : SmooshReader) : Prop where
  version : r.readFile versionBin = .ok (beBytes 4 9)
  index : r.readFile indexDrd = .ok (encodeIndexDrd segment.dimensions segment.metrics segment.interval)
  parsed : readIndexDrd native r = .ok ⟨segment.dimensions, segment.metrics, segment.interval⟩
  columns : ∀ n ∈ timeColumn :: (segment.dimensions ++ segment.metrics), ∃ column bytes,
    segment.columns.lookup n = some column ∧ codec.encode column = some bytes ∧
      r.readFile (descriptorName n) = .ok (descriptorJson (columnDescriptorFor (codec.kind column))) ∧ r.readFile n.bytes = .ok bytes
  unshadowed : (files.map (·.1)).Nodup

theorem mem_archiveNames {n : Utf8} :
    n ∈ archiveNames segment ↔ n ∈ timeColumn :: (segment.dimensions ++ segment.metrics) := by
  simp only [archiveNames, mem_cons, mem_filter, decide_eq_true_eq]
  by_cases h : n = timeColumn
  · simp [h]
  · simp [h]

theorem descriptorName_inj {n m : Utf8} (h : descriptorName n = descriptorName m) : n = m :=
  Utf8.ext (append_cancel_right h)

theorem versionBin_eq : versionBin = [118, 101, 114, 115, 105, 111, 110, 46, 98, 105, 110] := by
  unfold versionBin ascii
  rw [String.toList_ofList]
  rfl

theorem indexDrd_eq : indexDrd = [105, 110, 100, 101, 120, 46, 100, 114, 100] := by
  unfold indexDrd ascii
  rw [String.toList_ofList]
  rfl

theorem length_descriptorName (n : Utf8) : (descriptorName n).length = n.bytes.length + 23 := by
  unfold descriptorName ascii
  rw [String.toList_ofList, length_append]
  rfl

theorem descriptorName_ne (n : Utf8) : n.bytes ≠ descriptorName n := by
  intro h
  have hlen := congrArg List.length h
  rw [length_descriptorName] at hlen
  omega

/-- Two columns share an entry name exactly when one is named like the other's
descriptor. -/
theorem nodup_entryNames {names : List Utf8} (hnodup : names.Nodup) :
    (names.flatMap fun n => [descriptorName n, n.bytes]).Nodup ↔ ∀ n ∈ names, ∀ m ∈ names, m.bytes ≠ descriptorName n := by
  rw [nodup_flatMap]
  constructor
  · rintro ⟨-, hpair⟩ n hn m hm heq
    have hne : n ≠ m := by
      rintro rfl
      exact descriptorName_ne n heq
    have : Std.Symm (Function.onFun List.Disjoint fun n : Utf8 => [descriptorName n, n.bytes]) :=
      ⟨fun _ _ h _ hx hx' => h hx' hx⟩
    have hdisjoint := hpair.forall hn hm hne
    exact hdisjoint (a := descriptorName n) (by simp) (by simp [heq])
  · intro h
    refine ⟨fun n hn => by simpa using (h n hn n hn).symm, hnodup.pairwise_of_forall_ne fun n hn m hm hne => ?_⟩
    intro x hx hx'
    simp only [mem_cons, not_mem_nil, or_false] at hx hx'
    rcases hx with rfl | rfl <;> rcases hx' with heq | heq
    · exact hne (descriptorName_inj heq)
    · exact h n hn m hm heq.symm
    · exact h m hm n hn heq
    · exact hne (Utf8.ext heq)

/-! ## The names of an archive -/

theorem IndexName.append (h : IndexName name) {t : Bytes} (hcomma : comma ∉ t) (hline : CleanLine t) : IndexName (name ++ t) where
  noComma := fun hc => (mem_append.1 hc).elim h.noComma hcomma
  clean := fun b hb => (mem_append.1 hb).elim (h.clean b) (hline b)
  noSpace := fun t' => by
    rw [append_assoc]
    exact h.noSpace _

theorem indexName_of_valid {n : Utf8} (hvalid : validateSmooshEntryName n = .ok ()) (hspace : ¬ StartsWithSpace n.bytes) :
    IndexName n.bytes ∧ IndexName (descriptorName n) := by
  obtain ⟨hne, -, hcomma, hline⟩ := validateSmooshEntryName_ok hvalid
  have hname : IndexName n.bytes := ⟨hcomma, hline, not_space_append hne hspace⟩
  have hsuffix : ∀ b ∈ ascii ".column_descriptor.json", b ≠ comma ∧ b ≠ 10 ∧ b ≠ 13 := by
    rw [ascii, String.toList_ofList]
    simp [comma]
  exact ⟨hname, hname.append (fun h => (hsuffix _ h).1 rfl) fun b hb => (hsuffix b hb).2⟩

/-- A text of printable characters past the comma. -/
theorem indexName_of_plain {b : UInt8} {t : Bytes} (h : ∀ c ∈ b :: t, 0x2D ≤ c ∧ c < 0x80) : IndexName (b :: t) where
  noComma := fun hc => absurd (h comma hc).1 (by decide)
  clean := fun c hc => by
    constructor
    · rintro rfl
      exact absurd (h 10 hc).1 (by decide)
    · rintro rfl
      exact absurd (h 13 hc).1 (by decide)
  noSpace := fun t' => by
    rintro ⟨w, hw, hp⟩
    have hfirst : ∀ w ∈ whitespace, ∀ c ∈ w.head?, 0x2D ≤ c → ¬ c < 0x80 := by simp [whitespace]
    obtain ⟨r, hr⟩ := hp
    cases w with
    | nil => simp [whitespace] at hw
    | cons c w =>
      rw [cons_append, cons_append] at hr
      obtain rfl := (List.cons.inj hr).1
      exact hfirst _ hw c rfl (h c mem_cons_self).1 (h c mem_cons_self).2

theorem indexName_versionBin : IndexName versionBin := versionBin_eq ▸ indexName_of_plain (by simp)

theorem indexName_indexDrd : IndexName indexDrd := indexDrd_eq ▸ indexName_of_plain (by simp)

theorem validate_timeColumn : validateSmooshEntryName timeColumn = .ok () := by decide +kernel

theorem archiveNames_valid (h : validateColumnNames [] (segment.dimensions ++ segment.metrics) = .ok ()) :
    ∀ n ∈ archiveNames segment, validateSmooshEntryName n = .ok () := by
  intro n hn
  rcases mem_cons.1 (mem_archiveNames.1 hn) with rfl | hn
  · exact validate_timeColumn
  · exact ((validateColumnNames_ok h).1 n hn).1

theorem nodup_archiveNames (h : (segment.dimensions ++ segment.metrics).Nodup) : (archiveNames segment).Nodup := by
  refine nodup_cons.2 ⟨?_, h.filter _⟩
  simp [mem_filter]

/-- An entry of a column is not one of the control files. -/
theorem entry_ne_control {n : Utf8} (hvalid : validateSmooshEntryName n = .ok ()) :
    ∀ entry ∈ [descriptorName n, n.bytes], entry ≠ versionBin ∧ entry ≠ indexDrd := by
  obtain ⟨-, hreserved, -, -⟩ := validateSmooshEntryName_ok hvalid
  have hlong : 23 ≤ (descriptorName n).length := length_descriptorName n ▸ Nat.le_add_left 23 _
  have hversion : versionBin.length < 23 := by simp [versionBin_eq]
  have hindex : indexDrd.length < 23 := by simp [indexDrd_eq]
  intro entry hentry
  simp only [mem_cons, not_mem_nil, or_false] at hentry
  rcases hentry with rfl | rfl
  · constructor <;> intro heq
    · rw [heq] at hlong
      omega
    · rw [heq] at hlong
      omega
  · constructor <;> intro heq
    · exact hreserved (by simp [heq, reservedSegmentEntryNames])
    · exact hreserved (by simp [heq, reservedSegmentEntryNames])

theorem nodup_fileNames {names : List Utf8} (hvalid : ∀ n ∈ names, validateSmooshEntryName n = .ok ()) (hnodup : names.Nodup) :
    (versionBin :: indexDrd :: names.flatMap fun n => [descriptorName n, n.bytes]).Nodup ↔
      ∀ n ∈ names, ∀ m ∈ names, m.bytes ≠ descriptorName n := by
  have hcontrol : ∀ entry ∈ names.flatMap (fun n => [descriptorName n, n.bytes]), entry ≠ versionBin ∧ entry ≠ indexDrd := by
    intro entry hentry
    obtain ⟨n, hn, hentry⟩ := mem_flatMap.1 hentry
    exact entry_ne_control (hvalid n hn) entry hentry
  rw [nodup_cons, nodup_cons, nodup_entryNames hnodup]
  constructor
  · exact fun h => h.2.2
  · refine fun h => ⟨fun hmem => ?_, fun hmem => (hcontrol _ hmem).2 rfl, h⟩
    rcases mem_cons.1 hmem with heq | hmem
    · simp [versionBin_eq, indexDrd_eq] at heq
    · exact (hcontrol _ hmem).1 rfl

/-- An archive that could be written is not too large for its own index. -/
theorem length_declared_le (hnodup : (segment.dimensions ++ segment.metrics).Nodup)
    (hfiles : files.map (·.1) = versionBin :: indexDrd :: (archiveNames segment).flatMap fun n => [descriptorName n, n.bytes])
    (hcount : files.length ≤ maxSmooshEntries) : segment.dimensions.length + segment.metrics.length ≤ 16384 := by
  have hsub : segment.dimensions ++ segment.metrics ⊆ archiveNames segment :=
    fun n hn => mem_archiveNames.2 (mem_cons_of_mem _ hn)
  have hle := (subperm_of_subset hnodup hsub).length_le
  have hlen := congrArg List.length hfiles
  rw [length_append] at hle
  simp only [length_map, length_cons, length_flatMap, length_nil, map_const', sum_replicate_nat] at hlen
  unfold maxSmooshEntries at hcount
  omega

/-- A segment that could be written reopens as it was exactly when its column
names are safe. -/
theorem reopens_iff (codec : ColumnCodec C) (segment : SegmentData C) (native : Bytes → Except IndexError IndexDrd)
    (text : Bytes) (chunks : List Bytes) (htime : ∃ column ∈ segment.columns.lookup timeColumn, codec.kind column = .long)
    (hwrite : writeSegmentV9ToMemory codec segment = .ok (text, chunks)) :
    (∃ files r, buildSmooshWriter codec segment = .ok files ∧ fromParts text chunks = .ok r ∧ Reopens codec segment native files r) ↔
      NamesSafe segment := by
  have hsome : segment.columns.lookup timeColumn ≠ none := by
    obtain ⟨column, hcolumn, -⟩ := htime
    rw [Option.mem_def.1 hcolumn]
    exact Option.some_ne_none column
  obtain ⟨files, hbuild, hwrite⟩ := bind_eq_ok.1 hwrite
  have hfinish : finish files = .ok (text, chunks) := by
    split at hwrite
    · rename_i hparts
      cases hwrite
      exact hparts
    · cases hwrite
  obtain ⟨hvalidated, columns, hcolumns, hfiles⟩ := buildSmooshWriter_ok hsome hbuild
  obtain ⟨hmap, hall⟩ := columnFiles_ok hcolumns
  have hnames := archiveNames_valid hvalidated
  obtain ⟨hdeclared, hnodup⟩ := validateColumnNames_ok hvalidated
  have hfileNames : files.map (·.1) = versionBin :: indexDrd :: (archiveNames segment).flatMap fun n => [descriptorName n, n.bytes] := by
    rw [hfiles, map_cons, map_cons, hmap]
  have hunshadowed := nodup_fileNames hnames (nodup_archiveNames hnodup)
  rw [← hfileNames] at hunshadowed
  constructor
  · rintro ⟨files', r, hbuild', hopen, hreopens⟩
    rw [hbuild] at hbuild'
    cases hbuild'
    intro n hn
    refine ⟨fun hspace => ?_, fun m hm => hunshadowed.1 hreopens.unshadowed n (mem_archiveNames.2 hn) m (mem_archiveNames.2 hm)⟩
    obtain ⟨column, bytes, -, -, -, hread⟩ := hreopens.columns n hn
    rw [readFile_of_space hopen hspace] at hread
    cases hread
  · intro hsafe
    have hindexNames : ∀ f ∈ files, IndexName f.1 := by
      intro f hf
      have hmem := mem_map_of_mem (f := (·.1)) hf
      rw [hfileNames] at hmem
      simp only [mem_cons, mem_flatMap, not_mem_nil, or_false] at hmem
      rcases hmem with heq | heq | ⟨n, hn, heq | heq⟩
      · exact heq ▸ indexName_versionBin
      · exact heq ▸ indexName_indexDrd
      · exact heq ▸ (indexName_of_valid (hnames n hn) (hsafe n (mem_archiveNames.1 hn)).1).2
      · exact heq ▸ (indexName_of_valid (hnames n hn) (hsafe n (mem_archiveNames.1 hn)).1).1
    have hfilesNodup : (files.map (·.1)).Nodup :=
      hunshadowed.2 fun n hn m hm => (hsafe n (mem_archiveNames.1 hn)).2 m (mem_archiveNames.1 hm)
    obtain ⟨r, hopen, hread⟩ := fromParts_written hindexNames hfilesNodup (by simp [hfiles]) hfinish
    have hindex := hread (indexDrd, encodeIndexDrd segment.dimensions segment.metrics segment.interval) (by simp [hfiles])
    refine ⟨files, r, hbuild, hopen, ?_, hindex, ?_, fun n hn => ?_, hfilesNodup⟩
    · exact hread (versionBin, beBytes 4 9) (by simp [hfiles])
    · have hcount := length_declared_le hnodup hfileNames (finish_ok hfinish).1
      unfold readIndexDrd
      rw [hindex]
      refine parseIndexDrd_written native segment.interval ?_ ?_ fun s hs => (hdeclared s hs).2.1
      · unfold maxDimensions
        omega
      · unfold maxMetrics
        omega
    · obtain ⟨column, bytes, hcolumn, hbytes, hdescriptor, hdata⟩ := hall n (mem_archiveNames.2 hn)
      refine ⟨column, bytes, hcolumn, hbytes, hread (_, _) ?_, hread (_, _) ?_⟩
      · rw [hfiles]
        exact mem_cons_of_mem _ (mem_cons_of_mem _ hdescriptor)
      · rw [hfiles]
        exact mem_cons_of_mem _ (mem_cons_of_mem _ hdata)

/-- One `__time` row and the named dimension columns, whose bytes are given. -/
def namedSegment (columns : List (Utf8 × Bytes)) : SegmentData Bytes where
  interval := ⟨0, 86400000⟩
  dimensions := columns.map (·.1)
  metrics := []
  columns := (columns.foldl (fun m column => m.insert column.1 column.2) ∅ : HashMap Utf8 Bytes).insert timeColumn (beBytes 8 0)

/-- The columns are their own encodings. -/
def plainCodec : ColumnCodec Bytes := ⟨fun _ => .long, some⟩

/-- Write a segment, reopen the archive and read one entry. -/
def reread (segment : SegmentData Bytes) (name : Bytes) : Option (Except SmooshError Bytes) := do
  let (text, chunks) ← (writeSegmentV9ToMemory plainCodec segment).toOption
  let r ← (fromParts text chunks).toOption
  return r.readFile name

def pageColumn : Utf8 := ⟨ascii "page", by decide +kernel⟩

theorem reopens_page :
    ∃ text chunks files r, writeSegmentV9ToMemory plainCodec (namedSegment [(pageColumn, [7])]) = .ok (text, chunks) ∧
      buildSmooshWriter plainCodec (namedSegment [(pageColumn, [7])]) = .ok files ∧ fromParts text chunks = .ok r ∧
      Reopens plainCodec (namedSegment [(pageColumn, [7])]) (fun _ => .error .native) files r := by
  have hok : (writeSegmentV9ToMemory plainCodec (namedSegment [(pageColumn, [7])])).isOk = true := by decide +kernel
  cases hwrite : writeSegmentV9ToMemory plainCodec (namedSegment [(pageColumn, [7])]) with
  | error e =>
    rw [hwrite] at hok
    cases hok
  | ok parts =>
    obtain ⟨files, r, hbuild, hopen, hreopens⟩ := (reopens_iff plainCodec (namedSegment [(pageColumn, [7])]) (fun _ => .error .native)
      parts.1 parts.2 ⟨beBytes 8 0, by decide +kernel, rfl⟩ hwrite).2 (by decide +kernel)
    exact ⟨parts.1, parts.2, files, r, rfl, hbuild, hopen, hreopens⟩

/-- The column of a leading blank, and two columns of which one has the name of
the other's descriptor. -/
def spacedColumn : Utf8 := ⟨ascii " a", by decide +kernel⟩

def shadowedColumn : Utf8 := ⟨ascii "x", Eq.refl true⟩

def shadowingColumn : Utf8 := ⟨ascii "x.column_descriptor.json", by decide +kernel⟩

/-- The first column is accepted and cannot be read. The last two are accepted,
and the descriptor of one is the data of the other. -/
theorem accepted_names_lost :
    reread (namedSegment [(spacedColumn, [7])]) spacedColumn.bytes = some (.error (.fileNotFound spacedColumn.bytes)) ∧
      reread (namedSegment [(spacedColumn, [7])]) (ascii "a") = some (.ok [7]) ∧
      reread (namedSegment [(shadowedColumn, [7]), (shadowingColumn, [8])]) (descriptorName shadowedColumn) = some (.ok [8]) := by
  decide +kernel

end FerroDruid.Segment
