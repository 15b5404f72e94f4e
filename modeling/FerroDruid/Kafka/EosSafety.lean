import FerroDruid.Kafka.EosWriter
import FerroDruid.Lib.Text
import Mathlib.Logic.Encodable.Basic
import Mathlib.Logic.Equiv.List
/-!
# Acknowledged segments stay listed

Only the last operation of a publish touches anything below `published/`, and
it either renames a complete directory to a free name or leaves every name as
it is. So a listed directory is whole, and stays as it was.

Whose batch it holds is another matter: an id that is already published is
taken for a retry without a look at what is published there. An acknowledged
batch is the listed one as long as an id is only used again for the same batch.
-/

namespace FerroDruid.Kafka.EosWriter

open Lib Lib.Files List

variable {V : Type} {codec : EosCodec V} {base : Path} {fs fs' : Files} {c c' : Call V} {s : State V} {name : String}

/-! ## Paths -/

variable {p : Path}

theorem snoc_prefix_snoc {a b : String} : p ++ [a] <+: p ++ [b] ↔ a = b := by
  rw [prefix_append_right_inj, cons_prefix_cons]
  exact and_iff_left (prefix_rfl)

theorem not_prefix_snoc (p : Path) (a : String) : ¬ p ++ [a] <+: p := by
  intro h
  have hlen := h.length_le
  rw [length_append, length_singleton] at hlen
  omega

variable {q : Path}

/-- The two roots share no descendant. -/
theorem not_pending_of_published (h : publishedRoot base <+: q) : ¬ pendingRoot base <+: q := by
  intro hp
  have heq := prefix_of_prefix_length_le h hp (by simp [publishedRoot, pendingRoot])
  exact absurd (snoc_prefix_snoc.1 heq) (by decide)

/-- What is strictly below `published/`. -/
abbrev Visible (base : Path) : Path → Prop := Below (publishedRoot base)

/-- A path below `pending/` is no part of what is visible, and nothing visible
is on the way to it. -/
theorem Visible.apart (hq : Visible base q) (hp : pendingRoot base <+: p) : ¬ p <+: q ∧ ¬ q <+: p :=
  ⟨fun h => not_pending_of_published hq.1 (hp.trans h), fun h => not_pending_of_published (hq.1.trans h) hp⟩

theorem not_visible_pending (hp : pendingRoot base <+: p) : ¬ Visible base p :=
  fun h => (h.apart hp).1 prefix_rfl

theorem sibling_snoc (p : Path) (a suffix : String) : sibling (p ++ [a]) suffix = p ++ [a ++ ".tmp." ++ suffix] := by
  simp [sibling]

theorem tmp_ne (a suffix : String) : a ++ ".tmp." ++ suffix ≠ a := by
  intro h
  have hlen := congrArg String.length h
  simp only [String.length_append] at hlen
  have : ".tmp.".length = 5 := rfl
  omega

/-! ## Staging -/

/-- Nothing visible changes before the publish proper. -/
theorem frames_durableWrite {bytes : List UInt8} {suffix : String} (hp : pendingRoot base <+: p)
    (hs : pendingRoot base <+: sibling p suffix) :
    ∀ op ∈ durableWrite p bytes suffix, Frames (Visible base) op := by
  simp only [durableWrite, forall_mem_cons, not_mem_nil, false_imp_iff, implies_true, and_true]
  refine ⟨frames_createFile (not_visible_pending hs), frames_write (not_visible_pending hs), ?_⟩
  exact frames_rename (fun q hq => (hq.apart hs).1) fun q hq => (hq.apart hp).1

theorem frames_stageOps (metaBytes chunk json : List UInt8) (io : PublishIo) :
    ∀ op ∈ stageOps (pendingRoot base ++ [name]) metaBytes chunk json io, Frames (Visible base) op := by
  have hdir : pendingRoot base <+: pendingRoot base ++ [name] := prefix_append _ _
  have htmp : pendingRoot base <+: sibling (pendingRoot base ++ [name]) io.dirSuffix := by
    rw [sibling_snoc]
    exact prefix_append _ _
  have hbelow : ∀ {p : Path} (a : String), pendingRoot base <+: p → pendingRoot base <+: p ++ [a] :=
    fun a h => h.trans (prefix_append _ _)
  have hsib : ∀ {p : Path} (a suffix : String), pendingRoot base <+: p → pendingRoot base <+: sibling (p ++ [a]) suffix := by
    intro p a suffix h
    rw [sibling_snoc]
    exact hbelow _ h
  have hremove : ∀ {p : Path} (keep : Path → Bool), pendingRoot base <+: p → Frames (Visible base) (removeDirAll p keep) :=
    fun keep h => frames_removeDirAll fun q hq => (hq.apart h).1
  have hcreate : ∀ {p : Path}, pendingRoot base <+: p → Frames (Visible base) (createDirAll p) :=
    fun h => frames_createDirAll fun q hq => (hq.apart h).2
  simp only [stageOps, writeToDir, forall_mem_append, forall_mem_cons, not_mem_nil, false_imp_iff,
    implies_true, and_true]
  refine ⟨⟨⟨hremove _ hdir, hcreate hdir⟩, ⟨⟨⟨hremove _ htmp, hcreate htmp⟩, ?_⟩, ?_⟩, ?_, ?_⟩, ?_, ?_⟩
  · exact frames_durableWrite (hbelow _ htmp) (hsib _ _ htmp)
  · exact frames_durableWrite (hbelow _ htmp) (hsib _ _ htmp)
  · exact frames_removeEmptyDir (not_visible_pending hdir)
  · exact frames_rename (fun q hq => (hq.apart htmp).1) fun q hq => (hq.apart hdir).1
  · exact frames_createFile (not_visible_pending (hbelow _ hdir))
  · exact frames_write (not_visible_pending (hbelow _ hdir))

theorem node_of_durableWrite {bytes : List UInt8} {suffix : String}
    (h : run (durableWrite p bytes suffix) fs = (fs', true)) :
    fs'.node p = some (.file bytes) ∧ ∀ q, ¬ sibling p suffix <+: q → ¬ p <+: q → fs'.node q = fs.node q := by
  obtain ⟨fs₁, hcreate, h⟩ := run_cons h
  obtain ⟨fs₂, hwrite, h⟩ := run_cons h
  obtain ⟨fs₃, hrename, h⟩ := run_cons h
  cases h
  obtain ⟨hbytes, hframe₂⟩ := node_of_write hwrite
  obtain ⟨hmoved, hframe₃⟩ := node_of_rename hrename
  constructor
  · simpa using (hmoved []).trans (by simpa using hbytes)
  · intro q hs hp
    have hne : q ≠ sibling p suffix := fun hq => hs (hq ▸ prefix_rfl)
    rw [hframe₃ q hp hs, hframe₂ q hne, (node_of_createFile hcreate).2 q hne]

/-- The archive is in the directory, under both its names. -/
def Archived (fs : Files) (dir : Path) (metaBytes chunk : List UInt8) : Prop :=
  fs.node dir = some .dir ∧ fs.node (metaFile dir) = some (.file metaBytes) ∧ fs.node (chunkFile dir) = some (.file chunk)

theorem archived_of_writeToDir {metaBytes chunk : List UInt8} {io : PublishIo}
    (h : run (writeToDir (p ++ [name]) metaBytes chunk io) fs = (fs', true)) : Archived fs' (p ++ [name]) metaBytes chunk := by
  unfold writeToDir at h
  rw [sibling_snoc] at h
  obtain ⟨fs₄, h, hlast⟩ := run_append_true h
  obtain ⟨fs₃, h, hmeta⟩ := run_append_true h
  obtain ⟨fs₂, hdirs, hchunk⟩ := run_append_true h
  obtain ⟨fs₁, -, h⟩ := run_cons hdirs
  obtain ⟨fs₁', hcreate, h⟩ := run_cons h
  cases h
  obtain ⟨fs₅, hempty, h⟩ := run_cons hlast
  obtain ⟨fs₆, hrename, h⟩ := run_cons h
  cases h
  -- the staged directory under its temporary name
  generalize htmp : p ++ [name ++ ".tmp." ++ io.dirSuffix] = tmp at *
  obtain ⟨hchunk, hframe⟩ := node_of_durableWrite hchunk
  obtain ⟨hmeta, hframe'⟩ := node_of_durableWrite hmeta
  rw [metaFile, chunkFile, sibling_snoc] at *
  have hdir : fs₄.node tmp = some .dir := by
    rw [hframe' _ (not_prefix_snoc _ _) (not_prefix_snoc _ _), hframe _ (not_prefix_snoc _ _) (not_prefix_snoc _ _)]
    exact node_of_createDirAll hcreate
  have hchunk' : fs₄.node (tmp ++ ["00000.smoosh"]) = some (.file chunk) := by
    rw [hframe' _ ?_ ?_, hchunk]
    · intro hp
      have hlen := congrArg String.length (snoc_prefix_snoc.1 hp)
      simp only [String.length_append] at hlen
      have h₁ : "meta.smoosh".length = 11 := rfl
      have h₂ : ".tmp.".length = 5 := rfl
      have h₃ : "00000.smoosh".length = 12 := rfl
      omega
    · intro hp
      exact absurd (snoc_prefix_snoc.1 hp) (by decide)
  -- the rename moves it as it is
  have hkeep : ∀ q, q ≠ p ++ [name] → fs₅.node q = fs₄.node q := by
    intro q hq
    have := frames_removeEmptyDir (S := (· ≠ p ++ [name])) (p := p ++ [name]) (by simp) fs₄ q hq
    rwa [hempty] at this
  have hmoved : ∀ t, fs'.node (p ++ [name] ++ t) = fs₄.node (tmp ++ t) := by
    intro t
    rw [(node_of_rename hrename).1 t]
    refine hkeep _ fun ht => ?_
    have hp : p ++ [name ++ ".tmp." ++ io.dirSuffix] <+: p ++ [name] := htmp ▸ ⟨t, ht⟩
    exact tmp_ne _ _ (snoc_prefix_snoc.1 hp)
  refine ⟨?_, ?_, ?_⟩
  · simpa using (hmoved []).trans (by simpa using hdir)
  · exact (hmoved _).trans hmeta
  · exact (hmoved _).trans hchunk'

/-! ## The publish -/

/-- The call's batch, whole: its archive and its sidecar. -/
def Entry (codec : EosCodec V) (fs : Files) (dir : Path) (c : Call V) : Prop :=
  fs.node (sidecarFile dir) = some (.file (codec.toJson (c.batch.sidecar c.taskId))) ∧
    ∃ metaBytes chunk, codec.segment c.batch.rows = some (metaBytes, chunk) ∧ Archived fs dir metaBytes chunk

/-- An entry is what stands in its directory, wherever that is. -/
theorem Entry.moved {dir dir' : Path} (h : Entry codec fs dir c) (hn : ∀ t, fs'.node (dir' ++ t) = fs.node (dir ++ t)) :
    Entry codec fs' dir' c := by
  obtain ⟨hside, metaBytes, chunk, hseg, hdir, hmeta, hchunk⟩ := h
  refine ⟨(hn _).trans hside, metaBytes, chunk, hseg, ?_, (hn _).trans hmeta, (hn _).trans hchunk⟩
  simpa using (hn []).trans (by simpa using hdir)

theorem archived_of_stageOps {p : Path} {metaBytes chunk json : List UInt8} {io : PublishIo}
    (h : run (stageOps (p ++ [name]) metaBytes chunk json io) fs = (fs', true)) :
    fs'.node (sidecarFile (p ++ [name])) = some (.file json) ∧ Archived fs' (p ++ [name]) metaBytes chunk := by
  obtain ⟨fs₂, h, hside⟩ := run_append_true h
  obtain ⟨fs₁, -, harchive⟩ := run_append_true h
  obtain ⟨fs₃, hcreate, h⟩ := run_cons hside
  obtain ⟨fs₄, hwrite, h⟩ := run_cons h
  cases h
  obtain ⟨hdir, hmeta, hchunk⟩ := archived_of_writeToDir harchive
  obtain ⟨hbytes, hframe⟩ := node_of_write hwrite
  have hkeep : ∀ q, q ≠ sidecarFile (p ++ [name]) → fs'.node q = fs₂.node q := fun q hq =>
    (hframe q hq).trans ((node_of_createFile hcreate).2 q hq)
  refine ⟨hbytes, ?_, ?_, ?_⟩
  · rw [hkeep _ (by simp [sidecarFile]), hdir]
  · rw [hkeep _ (by simp [sidecarFile, metaFile]), hmeta]
  · rw [hkeep _ (by simp [sidecarFile, chunkFile]), hchunk]

/-- A call that could complete, if nothing stops it. -/
def Completes (codec : EosCodec V) (c : Call V) (io : PublishIo) : Prop :=
  io.stop = none ∧ c.batch.rows ≠ [] ∧ codec.segment c.batch.rows ≠ none

/-- What the last operation can do to what is visible. -/
theorem showOp_cases {dir dst : Path} {io : PublishIo} (hdir : pendingRoot base <+: dir) (hentry : Entry codec fs dir c) :
    ((∀ q, Visible base q → (showOp dir dst io fs).1.node q = fs.node q) ∧
        ((showOp dir dst io fs).2 = true → fs.exists? dst = true)) ∨
      (fs.exists? dst = false ∧ Entry codec (showOp dir dst io fs).1 dst c ∧
        ∀ q, Visible base q → ¬ dst <+: q → (showOp dir dst io fs).1.node q = fs.node q) := by
  unfold showOp
  split_ifs with hexists
  · exact .inl ⟨frames_removeDirAll (fun q hq => (Visible.apart hq hdir).1) fs, fun _ => hexists⟩
  · cases hr : rename dir dst fs with
    | mk fs₁ ok =>
      cases ok with
      | false =>
        refine .inl ⟨fun q _ => ?_, nofun⟩
        exact congrArg (fun r => r.node q) (files_of_rename_false hr)
      | true =>
        obtain ⟨hmoved, hframe⟩ := node_of_rename hr
        exact .inr ⟨by simpa using hexists, hentry.moved hmoved, fun q hq ht => hframe q ht (hq.apart hdir).1⟩

/-- The same of a whole script, given what its staging leaves. -/
theorem script_cases {stage : List FileOp} {dir dst : Path} {io : PublishIo}
    (hframes : ∀ op ∈ stage, Frames (Visible base) op) (hdir : pendingRoot base <+: dir) (hdst : Visible base dst)
    (hstaged : ∀ fs', run stage fs = (fs', true) → Entry codec fs' dir c) :
    ((∀ q, Visible base q → (run (stage ++ [showOp dir dst io]) fs).1.node q = fs.node q) ∧
        ((run (stage ++ [showOp dir dst io]) fs).2 = true → fs.exists? dst = true)) ∨
      (fs.exists? dst = false ∧ Entry codec (run (stage ++ [showOp dir dst io]) fs).1 dst c ∧
        ∀ q, Visible base q → ¬ dst <+: q → (run (stage ++ [showOp dir dst io]) fs).1.node q = fs.node q) := by
  have hkeep : ∀ q, Visible base q → (run stage fs).1.node q = fs.node q := fun q => run_frames hframes
  rw [run_append]
  split_ifs with hok
  · have hexists : (run stage fs).1.exists? dst = fs.exists? dst := congrArg Option.isSome (hkeep dst hdst)
    rw [run_singleton, ← hexists]
    rcases @showOp_cases V codec base _ c dir dst io hdir (hstaged _ (Prod.ext rfl hok)) with ⟨hsame, hret⟩ | ⟨hfree, hentry, hsame⟩
    · exact .inl ⟨fun q hq => (hsame q hq).trans (hkeep q hq), hret⟩
    · exact .inr ⟨hfree, hentry, fun q hq ht => (hsame q hq ht).trans (hkeep q hq)⟩
  · exact .inl ⟨hkeep, fun h => absurd h hok⟩

/-- What a publish can do to what is visible: nothing, and then it returns `Ok`
only over a directory that was there; or it puts the whole batch under a name
that was free. -/
theorem publish_cases (codec : EosCodec V) (io : PublishIo) (fs : Files) (hname : childName c.segmentId = some name) :
    ((∀ q, Visible base q → (publish codec base c io fs).1.node q = fs.node q) ∧
        ((publish codec base c io fs).2 = true → fs.exists? (target base c) = true ∧ Completes codec c io)) ∨
      (fs.exists? (target base c) = false ∧ Entry codec (publish codec base c io fs).1 (target base c) c ∧
        ∀ q, Visible base q → ¬ target base c <+: q → (publish codec base c io fs).1.node q = fs.node q) := by
  have htarget : target base c = publishedRoot base ++ [name] := joinPath_child hname _
  unfold publish publishOps
  rw [joinPath_child hname]
  split_ifs with hrows
  · exact .inl ⟨fun _ _ => rfl, nofun⟩
  cases hseg : codec.segment c.batch.rows with
  | none => exact .inl ⟨fun _ _ => rfl, nofun⟩
  | some bytes =>
    obtain ⟨metaBytes, chunk⟩ := bytes
    have hframes := @frames_stageOps base name metaBytes chunk (codec.toJson (c.batch.sidecar c.taskId)) io
    have hstaged := fun fs' => @archived_of_stageOps fs fs' name (pendingRoot base) metaBytes chunk
      (codec.toJson (c.batch.sidecar c.taskId)) io
    simp only
    generalize stageOps (pendingRoot base ++ [name]) metaBytes chunk (codec.toJson (c.batch.sidecar c.taskId)) io = stage at *
    have hscript := @script_cases V codec base fs c _ _ (target base c) io hframes (prefix_append _ _)
      (by rw [htarget]; exact ⟨prefix_append _ _, by simp⟩)
      fun fs' h => ⟨(hstaged fs' h).1, metaBytes, chunk, hseg, (hstaged fs' h).2⟩
    cases hstop : io.stop with
    | none =>
      refine hscript.imp_left fun h => ⟨h.1, fun hok => ⟨h.2 hok, hstop, ?_, by simp [hseg]⟩⟩
      exact fun hnil => hrows (by simp [hnil])
    | some k =>
      simp only
      by_cases hk : k ≤ stage.length
      · -- stopped in the staging
        rw [take_append_of_le_length hk]
        exact .inl ⟨fun q => run_frames fun op hop => hframes op (mem_of_mem_take hop), nofun⟩
      · rw [take_of_length_le (by simp; omega)]
        exact hscript.imp_left fun h => ⟨h.1, nofun⟩

theorem new_frames (keep : Path → Bool) (stop : Option ℕ) (hq : Visible base q) :
    (new base keep stop fs).node q = fs.node q := by
  have hops : ∀ op ∈ newOps base keep, Frames (Visible base) op := by
    simp only [newOps, forall_mem_cons, not_mem_nil, false_imp_iff, implies_true, and_true]
    refine ⟨frames_createDirAll fun q hq => (hq.apart prefix_rfl).2, frames_createDirAll fun q hq h => ?_,
      frames_sweep fun q hq => (hq.apart prefix_rfl).1⟩
    exact hq.2 (List.IsPrefix.eq_of_length_le h hq.1.length_le)
  cases stop with
  | none => exact run_frames hops hq
  | some k => exact run_frames (fun op hop => hops op (mem_of_mem_take hop)) hq

/-! ## Acknowledgement -/

/-- The segment reads as the call's batch: its task, its spans and its rows. -/
def Holds (codec : EosCodec V) (base : Path) (fs : Files) (seg : PublishedSegment) (c : Call V) : Prop :=
  seg.dir = target base c ∧ seg.taskId = c.taskId ∧ (∀ tp, seg.spans.lookup tp = c.batch.spans.lookup tp) ∧
    ∃ metaBytes chunk, codec.segment c.batch.rows = some (metaBytes, chunk) ∧ Archived fs seg.dir metaBytes chunk

/-- Every acknowledged batch is listed. -/
def Acknowledged (codec : EosCodec V) (base : Path) (s : State V) : Prop :=
  ∀ c ∈ s.acked, ∃ seg ∈ listPublished codec base s.files, Holds codec base s.files seg c

/-- Every listed entry is the whole of some call's batch. -/
def Whole (codec : EosCodec V) (base : Path) (s : State V) : Prop :=
  ∀ seg ∈ listPublished codec base s.files, ∃ c ∈ s.calls, Holds codec base s.files seg c

/-- Two calls for one batch: the same task, spans and segment. -/
def SameBatch (codec : EosCodec V) (c c' : Call V) : Prop :=
  c.taskId = c'.taskId ∧ (∀ tp, c.batch.spans.lookup tp = c'.batch.spans.lookup tp) ∧
    codec.segment c.batch.rows = codec.segment c'.batch.rows

/-- The id names one directory below `published/`, and a call that completes
finds nothing there but its own batch. -/
def RetriesSame (codec : EosCodec V) (base : Path) (s : State V) : Input V → Prop
  | .new _ _ => True
  | .publish c io =>
    childName c.segmentId ≠ none ∧ (Completes codec c io → ∀ c' ∈ s.placed (target base c), SameBatch codec c' c)

structure Inv (codec : EosCodec V) (base : Path) (s : State V) : Prop where
  placed : ∀ p c, s.placed p = some c →
    p = target base c ∧ (∃ name, p = publishedRoot base ++ [name]) ∧ c ∈ s.calls ∧ Entry codec s.files p c
  found : ∀ name, s.files.node (publishedRoot base ++ [name]) ≠ none → s.placed (publishedRoot base ++ [name]) ≠ none
  acked : ∀ c ∈ s.acked, ∃ c' ∈ s.placed (target base c), SameBatch codec c' c

theorem spans_sidecar (batch : PendingBatch V) (taskId : String) (tp : TopicPartition) :
    ((batch.sidecar taskId).spans.foldl (fun m e => m.insert e.1 e.2) (∅ : HashMap TopicPartition OffsetSpan)).lookup tp =
      batch.spans.lookup tp := by
  have h := HashMap.lookup_foldl_insert (fun _ span => span) batch.spans (∅ : HashMap TopicPartition OffsetSpan) tp
  simp only [PendingBatch.sidecar, foldl_map]
  rw [h]
  cases batch.spans.lookup tp with
  | none => rfl
  | some span => rfl

/-- An entry lists as the batch it holds. -/
theorem Entry.published {dir : Path} (h : Entry codec fs dir c) :
    ∃ seg, published? codec fs dir = some seg ∧ seg.dir = dir ∧ seg.taskId = c.taskId ∧
      ∀ tp, seg.spans.lookup tp = c.batch.spans.lookup tp := by
  obtain ⟨hside, metaBytes, chunk, -, hdir, -, -⟩ := h
  refine ⟨⟨dir, c.taskId, (c.batch.sidecar c.taskId).spans.foldl (fun m e => m.insert e.1 e.2) ∅⟩, ?_, rfl, rfl, ?_⟩
  · unfold published?
    rw [hdir, hside]
    simp only [codec.fromJson_toJson, Option.map_some]
    rfl
  · exact spans_sidecar c.batch c.taskId

theorem Inv.acknowledged (h : Inv codec base s) : Acknowledged codec base s := by
  intro c hc
  obtain ⟨c', hplaced, htask, hspans, hseg⟩ := h.acked c hc
  obtain ⟨-, ⟨name, hname⟩, -, hentry⟩ := h.placed _ c' hplaced
  obtain ⟨seg, hpub, hdir, htask', hspans'⟩ := hentry.published
  obtain ⟨-, metaBytes, chunk, hbytes, harchive⟩ := hentry
  refine ⟨seg, mem_filterMap.2 ⟨target base c, ?_, hpub⟩, hdir, htask'.trans htask,
    fun tp => (hspans' tp).trans (hspans tp), metaBytes, chunk, hseg ▸ hbytes, hdir ▸ harchive⟩
  rw [hname] at harchive ⊢
  exact mem_readDir (by rw [harchive.1]; exact Option.some_ne_none _)

theorem Inv.whole (h : Inv codec base s) : Whole codec base s := by
  intro seg hseg
  obtain ⟨q, hq, hpub⟩ := mem_filterMap.1 hseg
  obtain ⟨name, rfl, hnode⟩ := of_mem_readDir hq
  obtain ⟨c, hplaced⟩ := Option.ne_none_iff_exists'.1 (h.found name hnode)
  obtain ⟨htarget, -, hcall, hentry⟩ := h.placed _ c hplaced
  obtain ⟨seg', hpub', hdir, htask, hspans⟩ := hentry.published
  cases Option.some.inj (hpub'.symm.trans hpub)
  obtain ⟨-, metaBytes, chunk, hbytes, harchive⟩ := hentry
  exact ⟨c, hcall, hdir.trans htarget, htask, hspans, metaBytes, chunk, hbytes, hdir ▸ harchive⟩

theorem visible_snoc (base : Path) (name : String) (t : Path) : Visible base (publishedRoot base ++ [name] ++ t) := by
  refine ⟨(prefix_append _ _).trans (prefix_append _ _), fun h => ?_⟩
  have hlen := congrArg List.length h
  simp only [length_append, length_singleton] at hlen
  omega

/-- A placed directory is not free. -/
theorem Inv.exists_of_placed (h : Inv codec base s) (hp : s.placed p = some c) : s.files.exists? p = true := by
  obtain ⟨-, -, -, -, _, _, -, hdir, -⟩ := h.placed p c hp
  simp [exists?, hdir]

/-- The invariant looks at nothing that is not visible. -/
theorem Inv.sameVisible (h : Inv codec base s) {s' : State V} (hn : ∀ q, Visible base q → s'.files.node q = s.files.node q)
    (hcalls : ∀ c ∈ s.calls, c ∈ s'.calls) (hplaced : s'.placed = s.placed)
    (hacked : ∀ c ∈ s'.acked, c ∈ s.acked ∨ ∃ c' ∈ s.placed (target base c), SameBatch codec c' c) : Inv codec base s' := by
  refine ⟨?_, ?_, ?_⟩
  · intro p c hp
    rw [hplaced] at hp
    obtain ⟨htarget, ⟨name, rfl⟩, hcall, hentry⟩ := h.placed p c hp
    exact ⟨htarget, ⟨name, rfl⟩, hcalls c hcall, hentry.moved fun t => hn _ (visible_snoc base name t)⟩
  · intro name hnode
    have hvisible : Visible base (publishedRoot base ++ [name]) := by simpa using visible_snoc base name []
    rw [hn _ hvisible] at hnode
    rw [hplaced]
    exact h.found name hnode
  · intro c hc
    rw [hplaced]
    exact (hacked c hc).elim (h.acked c) id

/-- A whole batch put under a free name. -/
theorem Inv.place (h : Inv codec base s) {s' : State V} (htarget : target base c = publishedRoot base ++ [name])
    (hfree : s.files.exists? (target base c) = false) (hentry : Entry codec s'.files (target base c) c)
    (hn : ∀ q, Visible base q → ¬ target base c <+: q → s'.files.node q = s.files.node q)
    (hcalls : s'.calls = s.calls ++ [c]) (hplaced : s'.placed = Function.update s.placed (target base c) (some c))
    (hacked : ∀ c' ∈ s'.acked, c' ∈ s.acked ∨ c' = c) : Inv codec base s' := by
  have hother : ∀ {p : Path} {c' : Call V}, s.placed p = some c' → p ≠ target base c := by
    rintro p c' hp rfl
    rw [h.exists_of_placed hp] at hfree
    cases hfree
  have hkeep : ∀ name' t, publishedRoot base ++ [name'] ≠ target base c →
      s'.files.node (publishedRoot base ++ [name'] ++ t) = s.files.node (publishedRoot base ++ [name'] ++ t) := by
    intro name' t hne
    refine hn _ (visible_snoc base name' t) fun hp => hne ?_
    rw [htarget] at hp ⊢
    have hpre := prefix_of_prefix_length_le hp (prefix_append (publishedRoot base ++ [name']) t) (by simp)
    rw [snoc_prefix_snoc.1 hpre]
  refine ⟨?_, ?_, ?_⟩
  · intro p c' hp
    rw [hplaced] at hp
    rw [hcalls]
    by_cases hpt : p = target base c
    · rw [hpt, Function.update_self] at hp
      cases hp
      exact ⟨hpt, ⟨name, hpt.trans htarget⟩, by simp, hpt ▸ hentry⟩
    · rw [Function.update_of_ne hpt] at hp
      obtain ⟨ht, ⟨name', rfl⟩, hcall, hentry'⟩ := h.placed p c' hp
      exact ⟨ht, ⟨name', rfl⟩, mem_append_left _ hcall, hentry'.moved fun t => hkeep name' t hpt⟩
  · intro name' hnode
    rw [hplaced]
    by_cases hpt : publishedRoot base ++ [name'] = target base c
    · rw [hpt, Function.update_self]
      exact Option.some_ne_none _
    · rw [Function.update_of_ne hpt]
      have hsame := hkeep name' [] hpt
      rw [append_nil] at hsame
      exact h.found name' (hsame ▸ hnode)
  · intro c' hc'
    rw [hplaced]
    rcases hacked c' hc' with hc' | rfl
    · obtain ⟨c₁, hp, hsame⟩ := h.acked c' hc'
      exact ⟨c₁, by rw [Function.update_of_ne (hother hp)]; exact hp, hsame⟩
    · exact ⟨c', by rw [Function.update_self]; rfl, rfl, fun _ => rfl, rfl⟩

/-! ## Every sequence of steps -/

theorem step_inv {i : Input V} (hok : RetriesSame codec base s i) (h : Inv codec base s) : Inv codec base (step codec base s i) := by
  cases i with
  | new keep stop => exact h.sameVisible (fun q hq => new_frames keep stop hq) (fun _ => id) rfl fun c hc => .inl hc
  | publish c io =>
    obtain ⟨hname, hretry⟩ := hok
    obtain ⟨name, hname⟩ := Option.ne_none_iff_exists'.1 hname
    have htarget : target base c = publishedRoot base ++ [name] := joinPath_child hname _
    rcases @publish_cases V base c name codec io s.files hname with ⟨hn, hret⟩ | ⟨hfree, hentry, hn⟩
    · have hexists : (publish codec base c io s.files).1.exists? (target base c) = s.files.exists? (target base c) := by
        refine congrArg Option.isSome (hn _ ?_)
        simpa [htarget] using visible_snoc base name []
      refine h.sameVisible hn (fun c' hc' => mem_append_left _ hc') ?_ ?_
      · refine if_neg fun hnew => ?_
        rw [hexists, hnew.1] at hnew
        exact absurd hnew.2 (by simp)
      · intro c' hc'
        simp only [step] at hc'
        split_ifs at hc' with hret'
        · rcases mem_append.1 hc' with hc' | hc'
          · exact .inl hc'
          · obtain rfl := mem_singleton.1 hc'
            obtain ⟨hthere, hcompletes⟩ := hret hret'
            have hplaced : s.placed (target base c') ≠ none := by
              rw [htarget]
              refine h.found name fun hnone => ?_
              simp [exists?, htarget, hnone] at hthere
            obtain ⟨c₁, hc₁⟩ := Option.ne_none_iff_exists'.1 hplaced
            exact .inr ⟨c₁, hc₁, hretry hcompletes c₁ hc₁⟩
        · exact .inl hc'
    · have hthere : (publish codec base c io s.files).1.exists? (target base c) = true := by
        obtain ⟨-, _, _, -, hdir, -⟩ := hentry
        simp [exists?, hdir]
      refine h.place htarget hfree hentry hn rfl (if_pos ⟨hfree, hthere⟩) fun c' hc' => ?_
      simp only [step] at hc'
      split_ifs at hc'
      · exact (mem_append.1 hc').imp_right mem_singleton.1
      · exact .inl hc'

/-- A directory nothing was published in yet. -/
def State.fresh (fs : Files) : State V := ⟨fs, [], [], fun _ => none⟩

theorem Inv.fresh (hfresh : ∀ q, Visible base q → fs.node q = none) : Inv codec base (.fresh fs) := by
  refine ⟨nofun, fun name hnode => ?_, nofun⟩
  have hvisible : Visible base (publishedRoot base ++ [name]) := by simpa using visible_snoc base name []
  exact absurd (hfresh _ hvisible) hnode

/-- In every sequence of `new`, `publish` and crash steps in which each id names
a directory of its own and is only used again for the batch published under it,
every acknowledged batch is listed and every listed entry is whole, after every
step. -/
theorem acknowledged_listed (codec : EosCodec V) (base : Path) (fs : Files)
    (hfresh : ∀ q, Visible base q → fs.node q = none) (is : List (Input V))
    (h : Guarded (step codec base) (RetriesSame codec base) (.fresh fs) is) :
    ∀ js, js <+: is →
      Acknowledged codec base (js.foldl (step codec base) (.fresh fs)) ∧ Whole codec base (js.foldl (step codec base) (.fresh fs)) := by
  intro js hjs
  have hinv : Inv codec base (js.foldl (step codec base) (.fresh fs)) :=
    (h.shorten hjs).inv (Inv codec base) (fun s i => step_inv) (.fresh hfresh)
  exact ⟨hinv.acknowledged, hinv.whole⟩

/-! ## Two batches under one id -/

/-- Rows and offsets of one partition. -/
def batchOf (rows : List UInt8) (start next : ℤ) : PendingBatch UInt8 := ⟨rows, AList.insert ⟨"clicks", 0⟩ ⟨start, next⟩ ∅⟩

def firstCall : Call UInt8 := ⟨"task-a", "seg-0", batchOf [1, 2, 3] 0 3⟩

def secondCall : Call UInt8 := ⟨"task-a", "seg-0", batchOf [4, 5, 6, 7] 3 7⟩

/-- A sidecar of one span, as it is written. -/
def sidecarText (start next : String) : List UInt8 :=
  ascii "\x7b\n  \"task_id\": \"task-a\",\n  \"spans\": [\n    \x7b\n      \"topic\": \"clicks\",\n" ++
    ascii "      \"partition\": 0,\n      \"start\": " ++ ascii start ++ ascii ",\n      \"next\": " ++ ascii next ++
    ascii "\n    \x7d\n  ]\n\x7d"

/-- The sidecars of the two calls. -/
def knownJson : List (OffsetSidecar × List UInt8) :=
  [(firstCall.batch.sidecar "task-a", sidecarText "0" "3"), (secondCall.batch.sidecar "task-a", sidecarText "3" "7")]

/-- A number for every other sidecar. -/
instance : Encodable OffsetSidecar :=
  letI : Encodable Char := .ofLeftInverse Char.toNat Char.ofNat Char.ofNat_toNat
  letI : Encodable String := .ofLeftInverse String.toList String.ofList fun _ => String.ofList_toList
  .ofLeftInverse (fun s => (s.taskId, s.spans.map fun e => ((e.1.topic, e.1.partition), e.2.start, e.2.next)))
    (fun x => ⟨x.1, x.2.map fun e => (⟨e.1.1, e.1.2⟩, ⟨e.2.1, e.2.2⟩)⟩) fun s => by simp [Function.comp_def]

def sidecarJson (s : OffsetSidecar) : List UInt8 :=
  (List.lookup s knownJson).getD (0 :: List.replicate (Encodable.encode s) 0)

def sidecarOfJson (bytes : List UInt8) : Option OffsetSidecar :=
  match knownJson.find? (fun e => e.2 = bytes) with
  | some e => some e.1
  | none => Encodable.decode (bytes.length - 1)

theorem head_knownJson : ∀ e ∈ knownJson, e.2.head? = some 0x7B := by
  simp [knownJson, sidecarText, ascii]

theorem nodup_knownJson : (knownJson.map Prod.snd).Nodup := by
  simp [knownJson, sidecarText, ascii]

/-- In a table with no value twice, the value of a key leads back to it. -/
theorem find?_of_lookup {α β : Type} [DecidableEq α] [DecidableEq β] {a : α} {b : β} :
    ∀ {l : List (α × β)}, (l.map Prod.snd).Nodup → l.lookup a = some b → ∃ e, l.find? (fun e => e.2 = b) = some e ∧ e.1 = a
  | [], _, h => by simp at h
  | (a', b') :: l, hnodup, h => by
    rw [map_cons, nodup_cons] at hnodup
    rw [lookup_cons] at h
    by_cases ha : a = a'
    · subst ha
      simp only [beq_self_eq_true, Option.some.injEq] at h
      subst h
      exact ⟨(a, b'), by simp, rfl⟩
    · simp only [beq_false_of_ne ha] at h
      obtain ⟨e, he, hkey⟩ := find?_of_lookup hnodup.2 h
      have hmem : b ∈ l.map Prod.snd := by
        have hval := find?_some he
        exact of_decide_eq_true hval ▸ mem_map_of_mem (mem_of_find?_eq_some he)
      have hne : b' ≠ b := fun heq => hnodup.1 (heq ▸ hmem)
      exact ⟨e, by rw [find?_cons_of_neg (by simpa using hne)]; exact he, hkey⟩

theorem sidecarOfJson_sidecarJson (s : OffsetSidecar) : sidecarOfJson (sidecarJson s) = some s := by
  unfold sidecarJson sidecarOfJson
  cases hl : List.lookup s knownJson with
  | some json =>
    obtain ⟨e, he, hkey⟩ := find?_of_lookup nodup_knownJson hl
    rw [Option.getD_some, he]
    exact congrArg some hkey
  | none =>
    have hnew : ∀ t, knownJson.find? (fun e => e.2 = (0 : UInt8) :: t) = none := by
      intro t
      rw [find?_eq_none]
      intro e he heq
      have hhead := head_knownJson e he
      rw [of_decide_eq_true heq, head?_cons] at hhead
      exact absurd hhead (by decide)
    rw [Option.getD_none, hnew, length_cons, length_replicate, Nat.add_sub_cancel]
    exact Encodable.encodek s

/-- The archive is the rows. The sidecars of the two calls have their JSON, the
others a number after a byte no JSON text starts with. -/
def plainCodec : EosCodec UInt8 where
  segment := fun rows => some (ascii "v1,2147483647,1", rows)
  toJson := sidecarJson
  fromJson := sidecarOfJson
  fromJson_toJson := sidecarOfJson_sidecarJson

/-- A publish that crashes before the rename, a restart, and two publishes of
the same batch. -/
def retriedPublish : List (Input UInt8) :=
  [.new (fun _ => false) none, .publish firstCall { PublishIo.smooth with stop := some 10 }, .new (fun _ => false) none,
    .publish firstCall .smooth, .publish firstCall .smooth]

/-- A script that publishes one batch only meets nothing else under its id. -/
theorem guarded_of_single (hname : childName c.segmentId ≠ none) {is : List (Input V)}
    (his : ∀ c' io, .publish c' io ∈ is → c' = c) (hs : ∀ p c', s.placed p = some c' → c' = c) :
    Guarded (step codec base) (RetriesSame codec base) s is := by
  induction is generalizing s with
  | nil => trivial
  | cons i is ih =>
    have htail : ∀ c' io, .publish c' io ∈ is → c' = c := fun c' io h => his c' io (mem_cons_of_mem _ h)
    cases i with
    | new keep stop => exact ⟨trivial, ih htail hs⟩
    | publish c₁ io =>
      obtain rfl := his c₁ io mem_cons_self
      refine ⟨⟨hname, fun _ c' hc' => ?_⟩, ih htail fun p c' hp => ?_⟩
      · rw [hs _ c' hc']
        exact ⟨rfl, fun _ => rfl, rfl⟩
      · simp only [step] at hp
        split_ifs at hp
        · rw [Function.update_apply] at hp
          split_ifs at hp
          · exact (Option.some.inj hp).symm
          · exact hs p c' hp
        · exact hs p c' hp

/-- A listed entry is what its directory reads as. -/
theorem of_mem_listPublished {seg : PublishedSegment} (h : seg ∈ listPublished codec base fs) :
    published? codec fs seg.dir = some seg ∧ ∃ name, seg.dir = publishedRoot base ++ [name] := by
  obtain ⟨q, hq, hpub⟩ := mem_filterMap.1 h
  obtain ⟨name, rfl, -⟩ := of_mem_readDir hq
  have hdir : seg.dir = publishedRoot base ++ [name] := by
    unfold published? at hpub
    split at hpub
    · obtain ⟨s, -, rfl⟩ := Option.map_eq_some_iff.1 hpub
      rfl
    · cases hpub
  rw [hdir]
  exact ⟨hpub, name, rfl⟩

/-- A publish under a name that is taken leaves the entry there as it reads. -/
theorem published?_of_taken {seg : PublishedSegment} (io : PublishIo) (hname : childName c.segmentId = some name)
    (hpub : published? codec fs (target base c) = some seg) :
    published? codec (publish codec base c io fs).1 (target base c) = some seg := by
  have htarget : target base c = publishedRoot base ++ [name] := joinPath_child hname _
  have hthere : fs.exists? (target base c) = true := by
    unfold published? at hpub
    split at hpub
    · rename_i hdir hside
      simp [exists?, hdir]
    · cases hpub
  rcases @publish_cases V base c name codec io fs hname with ⟨hn, -⟩ | ⟨hfree, -⟩
  · have hdir := hn (publishedRoot base ++ [name]) (by simpa using visible_snoc base name [])
    have hside := hn (publishedRoot base ++ [name] ++ ["offsets.json"]) (visible_snoc base name _)
    unfold published? sidecarFile at hpub ⊢
    rw [htarget] at hpub ⊢
    rw [hdir, hside]
    exact hpub
  · rw [hthere] at hfree
    cases hfree

theorem childName_seg : childName "seg-0" = some "seg-0" := by decide +kernel

theorem acknowledged_listed_retried :
    (retriedPublish.foldl (step plainCodec ["data"]) (.fresh .empty)).acked.length = 2 ∧
      ∀ js, js <+: retriedPublish →
        Acknowledged plainCodec ["data"] (js.foldl (step plainCodec ["data"]) (.fresh .empty)) ∧
          Whole plainCodec ["data"] (js.foldl (step plainCodec ["data"]) (.fresh .empty)) := by
  refine ⟨by decide +kernel, acknowledged_listed _ _ _ (fun _ _ => rfl) retriedPublish
    (guarded_of_single (c := firstCall) ?_ ?_ nofun)⟩
  · exact ne_of_eq_of_ne childName_seg (Option.some_ne_none _)
  · simp only [retriedPublish, mem_cons, not_mem_nil, Input.publish.injEq, reduceCtorEq, false_or, or_false]
    rintro c' io (⟨rfl, -⟩ | ⟨rfl, -⟩ | ⟨rfl, -⟩) <;> rfl

/-- Another batch under a published id. -/
def reusedId : List (Input UInt8) := [.new (fun _ => false) none, .publish firstCall .smooth, .publish secondCall .smooth]

/-- The second batch is acknowledged, and the listing shows the first. -/
theorem reused_id_hides_batch :
    ¬ Acknowledged plainCodec ["data"] (reusedId.foldl (step plainCodec ["data"]) (.fresh .empty)) := by
  intro h
  have hacked : secondCall ∈ (reusedId.foldl (step plainCodec ["data"]) (.fresh .empty)).acked := by decide +kernel
  have hfirst : firstCall ∈ ((reusedId.take 2).foldl (step plainCodec ["data"]) (.fresh .empty)).acked := by decide +kernel
  have hinv : Inv plainCodec ["data"] ((reusedId.take 2).foldl (step plainCodec ["data"]) (.fresh .empty)) := by
    refine Guarded.inv _ (fun s i => step_inv)
      (guarded_of_single (c := firstCall) (ne_of_eq_of_ne childName_seg (Option.some_ne_none _)) ?_ nofun) (.fresh fun _ _ => rfl)
    simp [reusedId]
  have hrun : reusedId = reusedId.take 2 ++ [.publish secondCall .smooth] := rfl
  have htarget : target ["data"] secondCall = target ["data"] firstCall := congrArg (joinPath _) rfl
  rw [hrun, foldl_append] at h hacked
  generalize (reusedId.take 2).foldl (step plainCodec ["data"]) (.fresh .empty) = s at h hacked hfirst hinv
  -- the first batch is listed, and the second publish leaves its entry as it is
  obtain ⟨seg, hseg, hdir, -, hspans, -⟩ := hinv.acknowledged firstCall hfirst
  obtain ⟨seg', hseg', hdir', -, hspans', -⟩ := h secondCall hacked
  have hpub := (of_mem_listPublished hseg).1
  have hpub' := (of_mem_listPublished hseg').1
  rw [hdir, ← htarget] at hpub
  rw [hdir'] at hpub'
  obtain rfl : seg = seg' := Option.some.inj ((published?_of_taken .smooth childName_seg hpub).symm.trans hpub')
  have hspan : some (⟨0, 3⟩ : OffsetSpan) = some ⟨3, 7⟩ := (hspans ⟨"clicks", 0⟩).symm.trans (hspans' ⟨"clicks", 0⟩)
  exact absurd hspan (by decide)

end FerroDruid.Kafka.EosWriter
