import FsXfs.Blocks
import FsXfs.WholeBlocks

/-!
# Images of blocks that have changed hands

The overlay is keyed by place and outlives what the place is used for. An image of a block that is
given back and handed to a file hides the file's bytes from every later read, and the next push
writes it over them.
-/

namespace FsXfs.Mount

open Log Redo StateProg Cut

set_option autoImplicit false

variable {decode : List (List UInt8) → List Item} {sectors : ℕ} {m m' : Mount}
  {live : List (ℕ × List Item)} {use : ℕ → Use} {op : Change decode sectors} {a : ℕ}

/-! ## One byte -/

def Agrees (m : Mount) (a : ℕ) : Prop :=
  m.disk.home a = m.fileBytes a

theorem view_of_unheld (h : ¬m.overlay.Held (a / 512)) : m.view a = m.disk.home a :=
  Overlay.byte_of_not_held h

variable {items : List Item} {b bb : ℕ} {events : List Event} {s : Session}

theorem Advance.unheld (hadv : Advance decode m live items m') (h : ¬m.overlay.Held b) :
    ¬m'.overlay.Held b := by
  rcases hadv.overlay with hsame | hempty
  · rw [hsame]
    exact h
  · rw [hempty]
    exact AList.notMem_empty b

theorem Advance.fileBytes (hadv : Advance decode m live items m') :
    m'.fileBytes = m.fileBytes := by
  obtain ⟨events, htrace, hjournal, -⟩ := hadv.trace
  rw [Mount.fileBytes, htrace, dataPatches_append, dataPatches_journal hjournal, List.append_nil,
    hadv.base]
  rfl

theorem Agrees.advance (h : m.Agrees a) (hheld : ¬m.overlay.Held (a / 512))
    (hadv : Advance decode m live items m') : m'.Agrees a := by
  have hview := congrFun hadv.view a
  rw [view_of_unheld hheld, view_of_unheld (hadv.unheld hheld)] at hview
  rw [Agrees, hview, hadv.fileBytes]
  exact h

theorem agrees_data (hpre : events <+: op.dataEvents)
    (h : m.Agrees a ∨ Covers (dataPatches events) a) : (m.emit events).Agrees a := by
  rw [Agrees, disk_emit_data m hpre, fileBytes_emit]
  exact applyAll_congr_at h

/-! ## Between two operations -/

structure Tidy (m : Mount) (use : ℕ → Use) : Prop where
  unheld : ∀ b, use b ≠ .metadata → ¬m.overlay.Held b
  bytes : ∀ a, use (a / 512) = .data → m.Agrees a

theorem Tidy.unheld_data (h : Tidy m use) (ha : use (a / 512) = .data) :
    ¬m.overlay.Held (a / 512) :=
  h.unheld _ (by rw [ha]; decide)

theorem Tidy.advance (h : Tidy m use) (hadv : Advance decode m live items m') :
    Tidy m' use where
  unheld b hb := hadv.unheld (h.unheld b hb)
  bytes a ha := (h.bytes a ha).advance (h.unheld_data ha) hadv

theorem Tidy.data (h : Tidy m use) (hpre : events <+: op.dataEvents) :
    Tidy (m.emit events) use where
  unheld := h.unheld
  bytes a ha := agrees_data hpre (.inl (h.bytes a ha))

theorem Logbook.data (h : Logbook decode m live) (hpre : events <+: op.dataEvents) :
    Logbook decode (m.emit events) live :=
  h.congr rfl (by rw [disk_emit_data m hpre]) rfl rfl

theorem Tidy.synced (h : Tidy m use) (hlog : Logbook decode m live) : Tidy (m.synced op) use := by
  unfold Mount.synced
  split
  · have hadv : Advance decode m live [] m.settle := .settle hlog
    exact h.advance hadv
  · exact h

theorem Logbook.synced (h : Logbook decode m live) : Logbook decode (m.synced op) live := by
  unfold Mount.synced
  split
  · exact h.settle
  · exact h

theorem Logbook.finished {lsn : ℕ} (h : Logbook decode m live) :
    Logbook decode (m.finished op lsn) live := by
  have hfields := finished_eq m op lsn
  have hring : (m.finished op lsn).disk.ring = m.disk.ring := by rw [disk_finished]
  refine h.congr ?_ hring ?_ ?_ <;> rw [hfields]

theorem held_prepared (h : (m.prepared op).overlay.Held b) :
    op.syncsFirst = false ∧ m.overlay.Held b := by
  change (m.synced op).overlay.Held b at h
  unfold synced at h
  split at h
  · exact absurd h (AList.notMem_empty b)
  · next hno => exact ⟨by simpa using hno, h⟩

/-! ## One step -/

namespace Session

variable {s : Session} {lsn : ℕ}

/-- What an operation has to do with images: those it logs are of metadata, and a metadata block it
gives back has none left, because it holds none, because its path drops them or because the
operation pushes first. -/
structure Drops (s : Session) (op : Change decode sectors) : Prop where
  images : ∀ item ∈ op.images, ∀ b, item.Spans b → op.useAfter s.use b = .metadata
  given : op.syncsFirst = true ∨ ∀ b, s.use b = .metadata → op.useAfter s.use b ≠ .metadata →
    op.Forgets b ∨ ¬s.mount.overlay.Held b

def DropsStep (s : Session) : Step decode sectors → Prop
  | .operation op => s.Drops op
  | .sync => True

def DropsAll (s : Session) (steps : List (Step decode sectors)) : Prop :=
  s.Along DropsStep steps

/-- What holds of a session between two steps. -/
structure Sound (decode : List (List UInt8) → List Item) (s : Session) : Prop where
  tidy : Tidy s.mount s.use
  logbook : s.mount.writeFailed = false → ∃ live, Logbook decode s.mount live

theorem Sound.sync (h : Sound decode s) (hlog : Logbook decode s.mount live) :
    Sound decode ⟨finalState (Mount.sync s.mount), s.use⟩ := by
  have hadv : Advance decode s.mount live [] (finalState (Mount.sync s.mount)) := hlog.sync
  refine ⟨h.tidy.advance hadv, fun hfail => ?_⟩
  cases hsync : Mount.sync s.mount with
  | ok u m' =>
    obtain ⟨-, -, rfl⟩ := sync_eq_ok hsync
    exact ⟨live, hlog.settle⟩
  | error e m' =>
    rcases sync_eq_error hsync with ⟨rfl, -⟩ | ⟨-, events, -, rfl⟩
    · exact ⟨live, hlog⟩
    · rw [hsync] at hfail
      cases hfail

theorem Tidy.prepared (h : Tidy s.mount s.use) (hlog : Logbook decode s.mount live) :
    Tidy (s.mount.prepared op) s.use :=
  (h.synced hlog).data (List.prefix_refl _)

theorem Logbook.prepared (h : Logbook decode m live) : Logbook decode (m.prepared op) live :=
  h.synced.data (List.prefix_refl _)

theorem Tidy.finished (h : Tidy s.mount s.use) (hlog : Logbook decode s.mount live)
    (hallowed : s.Allowed op) (hdrops : s.Drops op)
    (hadv : Advance decode (s.mount.prepared op) live op.items m') :
    Tidy (m'.finished op lsn) (op.useAfter s.use) where
  unheld := by
    intro b hb hheld
    rcases held_finished hheld with ⟨item, hitem, hspans⟩ | ⟨hbefore, hkept⟩
    · exact hb (hdrops.images item hitem b hspans)
    have hprep : (s.mount.prepared op).overlay.Held b := by
      by_contra hno
      exact hadv.unheld hno hbefore
    obtain ⟨hfirst, hwas⟩ := held_prepared hprep
    have hmeta : s.use b = .metadata := by
      by_contra hno
      exact h.unheld b hno hwas
    rcases hdrops.given with hsync | hgiven
    · exact absurd (hfirst.symm.trans hsync) Bool.false_ne_true
    · rcases hgiven b hmeta hb with hforgets | hno
      · exact hkept hforgets
      · exact hno hwas
  bytes := by
    intro a ha
    have hprep : Tidy (s.mount.prepared op) s.use := Tidy.prepared h hlog
    have hbefore : (s.mount.prepared op).Agrees a ∧ ¬(s.mount.prepared op).overlay.Held (a / 512) := by
      unfold Change.useAfter at ha
      split at ha
      · next htaken =>
        refine ⟨agrees_data (List.prefix_refl _) (.inr (hallowed.data_written a htaken)), ?_⟩
        exact hprep.unheld _ (by rw [hallowed.data_free _ htaken]; decide)
      · split at ha
        · cases ha
        · split at ha
          · cases ha
          · exact ⟨hprep.bytes a ha, hprep.unheld_data ha⟩
    have hafter := hbefore.1.advance hbefore.2 hadv
    rw [Agrees, disk_finished, fileBytes_finished]
    exact hafter

theorem Sound.step {next : Step decode sectors} (h : Sound decode s)
    (hallowed : s.AllowedStep next) (hdrops : s.DropsStep next) : Sound decode (s.step next) := by
  cases hfail : s.mount.writeFailed with
  | true =>
    rw [step_of_writeFailed hfail]
    exact h
  | false =>
    obtain ⟨live, hlog⟩ := h.logbook hfail
    cases next with
    | sync => exact h.sync hlog
    | operation op =>
      have hprep : Logbook decode (s.mount.prepared op) live := Logbook.prepared hlog
      rcases perform_cases op s.mount with ⟨e, m', hop, hstop⟩ | ⟨e, m', hop, hcommit⟩ |
        ⟨lsn, m', hop, hcommit⟩
      · rw [Session.step, hop]
        rcases prepare_eq_error hstop with rfl | ⟨-, hsync⟩ | ⟨events, hpre, rfl⟩
        · exact h
        · have hsound := h.sync hlog
          rw [hsync] at hsound
          exact hsound
        · exact ⟨(h.tidy.synced hlog).data hpre, fun _ => ⟨live, hlog.synced.data hpre⟩⟩
      · rw [Session.step, hop]
        obtain ⟨hadv, hlater⟩ := hprep.commit_error hcommit
        refine ⟨(Tidy.prepared h.tidy hlog).advance hadv, fun hno => ?_⟩
        obtain ⟨-, kept, -, hkept⟩ := hlater hno
        exact ⟨kept, hkept⟩
      · rw [Session.step, hop]
        obtain ⟨hadv, -, p, -, -, hkept, -⟩ := hprep.commit_ok hcommit
        exact ⟨Tidy.finished h.tidy hlog hallowed hdrops hadv,
          fun _ => ⟨_, Logbook.finished hkept⟩⟩

theorem Sound.run {steps : List (Step decode sectors)} (h : Sound decode s)
    (hallowed : s.AllowedAll steps) (hdrops : s.DropsAll steps) : Sound decode (s.run steps) := by
  induction steps generalizing s with
  | nil => exact h
  | cons next steps ih => exact ih (h.step hallowed.1 hdrops.1) hallowed.2 hdrops.2

theorem Sound.of_clean (h : Clean s.mount) : Sound decode s where
  tidy := by
    refine ⟨fun b _ => ?_, fun a _ => ?_⟩
    · rw [h.overlay]
      exact AList.notMem_empty b
    · rw [Agrees, h.disk, fileBytes, h.trace]
      rfl
  logbook := fun _ => ⟨[], h.logbook⟩

end Session

/-! ## A block with two lives -/

@[irreducible] def twos : List UInt8 :=
  List.replicate 4096 2

theorem twos_length : twos.length = 4096 := by
  rw [twos, List.length_replicate]

theorem nothing_replaced : ∀ g ∈ ([] : List Given), g.path = .replacedFork → false = true := by
  simp

def takeMetadata (i bb : ℕ) : Change decodeBuffers 8 where
  toCheckpoint := bufferCheckpoint i
  given := []
  takenData := []
  takenMetadata := [(bb, 8)]
  inPlace := none
  syncsFirst := false
  inside := inside_bufferAt i
  cancels := rfl
  replaced := nothing_replaced

def freeExtent (i bb : ℕ) : Change decodeBuffers 8 where
  toCheckpoint := bufferCheckpoint i
  given := [⟨.extents, bb, 1⟩]
  takenData := []
  takenMetadata := []
  inPlace := none
  syncsFirst := false
  inside := inside_bufferAt i
  cancels := rfl
  replaced := by simp

def fillBlock (i bb : ℕ) : Change decodeBuffers 8 where
  toCheckpoint := bufferCheckpoint i
  given := []
  takenData := [(bb, 8)]
  takenMetadata := []
  inPlace := some [(bb * 512, twos)]
  syncsFirst := false
  inside := inside_bufferAt i
  cancels := rfl
  replaced := nothing_replaced

theorem prepare_reliable (hrel : m.Reliable) (hfail : m.writeFailed = false)
    (hwritable : m.writable = true) (hfirst : op.syncsFirst = false) :
    prepare op m = .ok () (m.emit op.dataEvents) := by
  have hdev : writableDevice m = .ok () m := writableDevice_eq_ok.mpr ⟨hfail, hwritable, rfl⟩
  have hsync : syncFirst op m = .ok () m := by
    rw [syncFirst, hfirst]
    rfl
  exact seq_eq_ok.mpr ⟨(), m, hdev, seq_eq_ok.mpr ⟨(), m, hsync, writeData_reliable hrel⟩⟩

theorem Piled.data {n : ℕ} (h : Piled n m) (op : Change decode sectors) :
    Piled n (m.emit op.dataEvents) := by
  have hfind : (m.emit op.dataEvents).findHead = m.findHead := by
    unfold findHead
    rw [disk_emit_data m (List.prefix_refl _)]
    rfl
  have hrun := h.running
  exact ⟨⟨hrun.sb, hrun.base, hrun.reliable, hrun.writeFailed, hrun.writable, by
    rw [hfind]; exact hrun.head⟩, h.held, h.bytes⟩

theorem Piled.perform {n : ℕ} (h : Piled n m) (hn : n < 4096) {op : Change decodeBuffers 8}
    (hop : op.toCheckpoint = bufferCheckpoint n) (hfirst : op.syncsFirst = false)
    (hforgotten : op.forgotten = []) :
    ∃ p lsn, (m.emit op.dataEvents).plan op.build = .ok p ∧ Straight (m.emit op.dataEvents) p ∧
      commitRecord op.build (m.emit op.dataEvents) = .ok lsn ((m.emit op.dataEvents).logged p) ∧
      Mount.perform op m = .ok lsn (((m.emit op.dataEvents).logged p).finished op lsn) ∧
      Piled (n + 1) (((m.emit op.dataEvents).logged p).finished op lsn) := by
  have hrun := h.running
  have hprep := prepare_reliable hrun.reliable hrun.writeFailed hrun.writable hfirst
  obtain ⟨p, lsn, hplan, hstraight, hcommit, hpiled⟩ := (h.data op).put hn
  rw [← hop] at hplan hcommit
  have himages : op.images = [bufferAt n] := by
    rw [Change.images, hop]
    rfl
  have hitems : op.items = [bufferAt n] := by
    rw [hop]
    rfl
  have hfinished : ((m.emit op.dataEvents).logged p).finished op lsn =
      ((m.emit op.dataEvents).logged p).afterPut lsn [bufferAt n] := by
    rw [finished, hforgotten, himages, hitems]
    rfl
  refine ⟨p, lsn, hplan, hstraight, hcommit, ?_, by rw [hfinished]; exact hpiled⟩
  exact seq_eq_ok.mpr ⟨(), _, hprep, seq_eq_ok.mpr ⟨lsn, _, hcommit, rfl⟩⟩

theorem Session.step_piled {n : ℕ} (h : Piled n s.mount) (hn : n < 4096)
    {op : Change decodeBuffers 8} (hop : op.toCheckpoint = bufferCheckpoint n)
    (hfirst : op.syncsFirst = false) (hforgotten : op.forgotten = []) :
    Piled (n + 1) (s.step (.operation op)).mount ∧
      (s.step (.operation op)).use = op.useAfter s.use := by
  obtain ⟨p, lsn, -, -, -, hperform, hpiled⟩ := h.perform hn hop hfirst hforgotten
  rw [Session.step, hperform]
  exact ⟨hpiled, rfl⟩

theorem covers_twos {a : ℕ} (ha : bb ≤ a / 512 ∧ a / 512 < bb + 8) (i : ℕ) :
    Covers (dataPatches (fillBlock i bb).dataEvents) a := by
  refine ⟨chunkPatch (bb * 512) twos, List.mem_singleton_self _, ?_⟩
  rw [chunkPatch, if_pos (by rw [twos_length]; omega)]
  rfl

def usedFor (bb : ℕ) (first : Use) (b : ℕ) : Use :=
  if bb ≤ b ∧ b < bb + 8 then first else .metadata

theorem useAfter_given {op : Change decodeBuffers 8} {path : Release} (first : Use)
    (hgiven : op.given = [⟨path, bb, 1⟩]) (hdata : op.takenData = []) (hmetadata : op.takenMetadata = []) :
    op.useAfter (usedFor bb first) = usedFor bb .free := by
  funext b
  have hgives : op.Gives b ↔ bb ≤ b ∧ b < bb + 8 := by
    simp [Change.Gives, hgiven, Given.Has]
  unfold Change.useAfter
  rw [if_neg (by simp [hdata, InRuns]), if_neg (by simp [hmetadata, InRuns])]
  simp only [hgives, usedFor]
  split <;> rfl

theorem useAfter_fillBlock (i bb : ℕ) (first : Use) :
    (fillBlock i bb).useAfter (usedFor bb first) = usedFor bb .data := by
  funext b
  have hruns : InRuns (fillBlock i bb).takenData b ↔ bb ≤ b ∧ b < bb + 8 := by
    simp [fillBlock, InRuns]
  unfold Change.useAfter
  rw [if_neg (c := InRuns (fillBlock i bb).takenMetadata b) (by simp [fillBlock, InRuns]),
    if_neg (c := (fillBlock i bb).Gives b) (by simp [fillBlock, Change.Gives])]
  simp only [hruns, usedFor]
  split <;> rfl

theorem useAfter_takeMetadata (i bb : ℕ) (first : Use) :
    (takeMetadata i bb).useAfter (usedFor bb first) = usedFor bb .metadata := by
  funext b
  have hruns : InRuns (takeMetadata i bb).takenMetadata b ↔ bb ≤ b ∧ b < bb + 8 := by
    simp [takeMetadata, InRuns]
  unfold Change.useAfter
  rw [if_neg (c := InRuns (takeMetadata i bb).takenData b) (by simp [takeMetadata, InRuns]),
    if_neg (c := (takeMetadata i bb).Gives b) (by simp [takeMetadata, Change.Gives])]
  simp only [hruns, usedFor]
  split <;> rfl

theorem allowed_of_taken_nil {op : Change decodeBuffers 8} (s : Session) (hdata : op.takenData = [])
    (hmetadata : op.takenMetadata = []) : s.Allowed op where
  data_free b hb := by simp [hdata, InRuns] at hb
  data_written a ha := by simp [hdata, InRuns] at ha
  metadata_free b hb := by simp [hmetadata, InRuns] at hb

theorem allowed_takeMetadata (huse : s.use = usedFor bb .free) (i : ℕ) :
    s.Allowed (takeMetadata i bb) where
  data_free b hb := by simp [takeMetadata, InRuns] at hb
  data_written a ha := by simp [takeMetadata, InRuns] at ha
  metadata_free b hb := by
    have hin : bb ≤ b ∧ b < bb + 8 := by simpa [takeMetadata, InRuns] using hb
    rw [huse]
    exact .inl (if_pos hin)

theorem allowed_fillBlock (huse : s.use = usedFor bb .free) (i : ℕ) :
    s.Allowed (fillBlock i bb) where
  data_free b hb := by
    have hin : bb ≤ b ∧ b < bb + 8 := by simpa [fillBlock, InRuns] using hb
    rw [huse]
    exact if_pos hin
  data_written a ha := covers_twos (by simpa [fillBlock, InRuns] using ha) i
  metadata_free b hb := by simp [fillBlock, InRuns] at hb

theorem images_outside {op : Change decodeBuffers 8} {n : ℕ} {before after : Use}
    (hop : op.toCheckpoint = bufferCheckpoint n) (hn : n ≤ 4700) (hbb : bb + 8 ≤ place n)
    (huse : op.useAfter (usedFor bb before) = usedFor bb after) :
    ∀ item ∈ op.images, ∀ b, item.Spans b → op.useAfter (usedFor bb before) b = .metadata := by
  intro item hitem b hb
  have himages : op.images = [bufferAt n] := by
    rw [Change.images, hop]
    rfl
  rw [himages, List.mem_singleton] at hitem
  subst hitem
  have hlo : place n ≤ b := by
    have hspans := hb.1
    change place n % 256 ^ 8 ≤ b at hspans
    rwa [place_mod hn] at hspans
  rw [huse, usedFor, if_neg (by omega)]

theorem fillBlock_keeps_metadata (i bb : ℕ) (hb : usedFor bb .free b = .metadata) :
    (fillBlock i bb).useAfter (usedFor bb .free) b = .metadata := by
  rw [useAfter_fillBlock]
  unfold usedFor at hb ⊢
  split at hb
  · cases hb
  · next hout => exact if_neg hout

theorem usedFor_metadata (bb b : ℕ) : usedFor bb .metadata b = .metadata :=
  ite_self _

def reuseSession : Session :=
  ⟨bigLogVolume, usedFor (place 0) .free⟩

theorem step_takeMetadata :
    Piled 1 (reuseSession.step (.operation (takeMetadata 0 (place 0)))).mount ∧
      (reuseSession.step (.operation (takeMetadata 0 (place 0)))).use =
        usedFor (place 0) .metadata := by
  obtain ⟨hpiled, huse⟩ := @Session.step_piled reuseSession 0 bigLogVolume_piled (by decide)
    (takeMetadata 0 (place 0)) rfl rfl rfl
  exact ⟨hpiled, huse.trans (useAfter_takeMetadata 0 (place 0) .free)⟩

/-! ### Freed with its fork -/

theorem regions_cancel (tid : ℕ) :
    regions (⟨0, transHeader tid xfsTransCheckpoint 1⟩ :: (BufferItem.cancel (place 0) 8).ops) =
      (BufferItem.cancel (place 0) 8).ops.map Op.data := by
  have hops : (BufferItem.cancel (place 0) 8).ops.filter (fun op => !op.data.isEmpty) =
      (BufferItem.cancel (place 0) 8).ops := by decide +kernel
  have hfirst : (BufferItem.cancel (place 0) 8).ops.dropWhile isTransHeader =
      (BufferItem.cancel (place 0) 8).ops := by decide +kernel
  have hheader : (transHeader tid xfsTransCheckpoint 1).isEmpty = false := rfl
  simp only [regions, List.filter_cons, hheader, Bool.not_false, if_true, hops, List.dropWhile_cons,
    isTransHeader_transHeader, hfirst]

theorem isPlain_cancel (tid : ℕ) :
    ∀ op ∈ (⟨0, transHeader tid xfsTransCheckpoint 1⟩ :: (BufferItem.cancel (place 0) 8).ops : List Op),
      op.isPlain = true := by
  intro op hop
  rcases List.mem_cons.mp hop with rfl | hop
  · simp [Op.isPlain, Op.isStart, Op.isCommit, Op.isUnmount]
  · have hall : ∀ op ∈ (BufferItem.cancel (place 0) 8).ops, op.isPlain = true := by decide +kernel
    exact hall op hop

theorem itemsOf_cancel (tid : ℕ) :
    itemsOf decodeBuffers (⟨0, transHeader tid xfsTransCheckpoint 1⟩ :: (BufferItem.cancel (place 0) 8).ops) =
      [cancelItem (place 0) 8] := by
  rw [itemsOf, regions_cancel]
  decide +kernel

def cancelCheckpoint : Checkpoint decodeBuffers where
  body tid := ⟨0, transHeader tid xfsTransCheckpoint 1⟩ :: (BufferItem.cancel (place 0) 8).ops
  items := [cancelItem (place 0) 8]
  plain := isPlain_cancel
  decoded := itemsOf_cancel

theorem cancelCheckpoint_cost (tid : ℕ) : ((cancelCheckpoint.build tid).map opCost).sum = 88 := by
  have hops : ((BufferItem.cancel (place 0) 8).ops.map opCost).sum = 36 := by decide +kernel
  have hheader : (transHeader tid xfsTransCheckpoint 1).length = 16 := rfl
  change ((transactionOps (_ :: (BufferItem.cancel (place 0) 8).ops)).map opCost).sum = _
  simp [transactionOps, opCost, opHeaderSize, startOp, commitOp, hheader, hops]

-- `release_freed_attribute_fork` for the block at `place 0`
def goneFork : Change decodeBuffers 8 where
  toCheckpoint := cancelCheckpoint
  given := [⟨.goneFork, place 0, 1⟩]
  takenData := []
  takenMetadata := []
  inPlace := none
  syncsFirst := false
  inside := by simp [cancelCheckpoint, cancelItem, Item.Inside]
  cancels := rfl
  replaced := by simp

theorem Piled.goneFork_ok {n : ℕ} (h : Piled n m) (hn : n < 4096) :
    ∃ lsn m', Mount.perform goneFork m = .ok lsn m' := by
  have hrun := h.running
  have hprep := prepare_reliable hrun.reliable hrun.writeFailed hrun.writable
    (show goneFork.syncsFirst = false from rfl)
  obtain ⟨p, -, hplan, hstraight, -⟩ :=
    (h.data goneFork).running.one_record (by omega) cancelCheckpoint_cost (by decide)
  exact ⟨_, _, seq_eq_ok.mpr ⟨(), _, hprep, seq_eq_ok.mpr ⟨_, _, commitRecord_straight hstraight hplan,
    rfl⟩⟩⟩

def loggedThenFreed : List (Session.Step decodeBuffers 8) :=
  [.operation (takeMetadata 0 (place 0)), .operation goneFork]

theorem use_loggedThenFreed : (reuseSession.run loggedThenFreed).use = usedFor (place 0) .free := by
  obtain ⟨hpiled, huse⟩ := step_takeMetadata
  obtain ⟨lsn, m', hperform⟩ := hpiled.goneFork_ok (by decide)
  rw [Session.run, loggedThenFreed, List.foldl_cons, List.foldl_cons, List.foldl_nil]
  generalize reuseSession.step (.operation (takeMetadata 0 (place 0))) = s₁ at huse hperform
  rw [Session.step, hperform]
  change goneFork.useAfter s₁.use = _
  rw [huse]
  exact useAfter_given .metadata rfl rfl rfl

theorem allowed_loggedThenFilled :
    reuseSession.AllowedAll (loggedThenFreed ++ [.operation (fillBlock 1 (place 0))]) :=
  Session.along_append.mpr ⟨⟨allowed_takeMetadata rfl 0, allowed_of_taken_nil _ rfl rfl, trivial⟩,
    allowed_fillBlock use_loggedThenFreed 1⟩

theorem drops_loggedThenFilled :
    reuseSession.DropsAll (loggedThenFreed ++ [.operation (fillBlock 1 (place 0))]) := by
  refine Session.along_append.mpr ⟨⟨⟨?_, .inr ?_⟩, ⟨?_, .inr ?_⟩, trivial⟩, ?_, .inr ?_⟩
  · intro item _ b _
    exact (congrFun (useAfter_takeMetadata 0 (place 0) .free) b).trans (usedFor_metadata _ b)
  · intro b _ hafter
    exact absurd ((congrFun (useAfter_takeMetadata 0 (place 0) .free) b).trans (usedFor_metadata _ b))
      hafter
  · intro item hitem
    cases hitem
  · intro b hb hafter
    left
    by_contra hnot
    have hgives : ¬goneFork.Gives b := by
      rintro ⟨g, hg, hhas⟩
      refine hnot ⟨g, hg, ?_, hhas⟩
      rw [List.mem_singleton.mp hg]
      rfl
    refine hafter ?_
    unfold Change.useAfter
    rwa [if_neg (by simp [goneFork, InRuns]), if_neg (by simp [goneFork, InRuns]), if_neg hgives]
  · rw [use_loggedThenFreed]
    exact images_outside rfl (by decide) (by decide) (useAfter_fillBlock 1 _ _)
  · rw [use_loggedThenFreed]
    exact fun b hb hafter => absurd (fillBlock_keeps_metadata 1 _ hb) hafter

/-! ## Whole runs -/

/-- In every run from a clean log whose operations see to the images of the blocks they give back,
no block that is free or a file's has an image in the overlay. What is read of a file's block, and
what a sync leaves there, is what was written in place. -/
theorem freed_and_file_blocks_have_no_image {s : Session} (hclean : Clean s.mount)
    (steps : List (Session.Step decode sectors)) (hallowed : s.AllowedAll steps)
    (hdrops : s.DropsAll steps) :
    (∀ b, (s.run steps).use b ≠ .metadata → ¬(s.run steps).mount.overlay.Held b) ∧
      ∀ a, (s.run steps).use (a / 512) = .data →
        (s.run steps).mount.view a = (s.run steps).mount.fileBytes a ∧
        ∀ m', sync (s.run steps).mount = .ok () m' →
          m'.disk.home a = (s.run steps).mount.fileBytes a := by
  have hsound : Session.Sound decode (s.run steps) :=
    (Session.Sound.of_clean hclean).run hallowed hdrops
  refine ⟨hsound.tidy.unheld, fun a ha => ?_⟩
  have hview : (s.run steps).mount.view a = (s.run steps).mount.fileBytes a := by
    rw [view_of_unheld (hsound.tidy.unheld_data ha)]
    exact hsound.tidy.bytes a ha
  refine ⟨hview, fun m' hsync => ?_⟩
  obtain ⟨-, -, rfl⟩ := sync_eq_ok hsync
  rw [disk_settle]
  exact hview

/-- A block is logged as an attribute fork's, freed with its fork and filled with a file's bytes. -/
theorem freed_then_filled_block_has_no_image :
    Clean reuseSession.mount ∧
      (reuseSession.step (.operation (takeMetadata 0 (place 0)))).mount.overlay.Held (place 0) ∧
      ∀ b, (reuseSession.run (loggedThenFreed ++ [.operation (fillBlock 1 (place 0))])).use b ≠
          .metadata →
        ¬(reuseSession.run (loggedThenFreed ++ [.operation (fillBlock 1 (place 0))])).mount.overlay.Held
          b :=
  ⟨bigLogVolume_clean, (step_takeMetadata.1.held (place 0)).mpr (by decide),
    (freed_and_file_blocks_have_no_image bigLogVolume_clean _ allowed_loggedThenFilled
      drops_loggedThenFilled).1⟩

def reusedBlock : List (Session.Step decodeBuffers 8) :=
  [.operation (takeMetadata 0 (place 0)), .operation (freeExtent 1 (place 0)),
    .operation (fillBlock 2 (place 0))]

theorem run_reusedBlock :
    reuseSession.AllowedAll reusedBlock ∧ Piled 3 (reuseSession.run reusedBlock).mount ∧
      (reuseSession.run reusedBlock).use = usedFor (place 0) .data := by
  obtain ⟨hpiled₁, huse₁⟩ := step_takeMetadata
  generalize hs₁ : reuseSession.step (.operation (takeMetadata 0 (place 0))) = s₁ at hpiled₁ huse₁
  obtain ⟨hpiled₂, huse₂⟩ := @Session.step_piled s₁ 1 hpiled₁ (by decide)
    (freeExtent 1 (place 0)) rfl rfl rfl
  rw [huse₁, useAfter_given .metadata rfl rfl rfl] at huse₂
  generalize hs₂ : s₁.step (.operation (freeExtent 1 (place 0))) = s₂ at hpiled₂ huse₂
  obtain ⟨hpiled₃, huse₃⟩ := @Session.step_piled s₂ 2 hpiled₂ (by decide)
    (fillBlock 2 (place 0)) rfl rfl rfl
  rw [huse₂, useAfter_fillBlock] at huse₃
  have hrun : reuseSession.run reusedBlock = s₂.step (.operation (fillBlock 2 (place 0))) := by
    rw [Session.run, reusedBlock, List.foldl_cons, List.foldl_cons, List.foldl_cons,
      List.foldl_nil, hs₁, hs₂]
  have hallowed₁ : reuseSession.Allowed (takeMetadata 0 (place 0)) := allowed_takeMetadata rfl 0
  rw [hrun]
  refine ⟨⟨hallowed₁, ?_⟩, hpiled₃, huse₃⟩
  rw [hs₁]
  refine ⟨allowed_of_taken_nil s₁ rfl rfl, ?_⟩
  rw [hs₂]
  exact ⟨allowed_fillBlock huse₂ 2, trivial⟩

/-- The block's image is still in the overlay when the block is a file's. -/
theorem freed_extent_leaves_its_image :
    Clean reuseSession.mount ∧ reuseSession.AllowedAll reusedBlock ∧
      ¬∀ b, (reuseSession.run reusedBlock).use b ≠ .metadata →
        ¬(reuseSession.run reusedBlock).mount.overlay.Held b := by
  obtain ⟨hallowed, hpiled, huse⟩ := run_reusedBlock
  refine ⟨bigLogVolume_clean, hallowed, fun hno => hno (place 0) ?_ ?_⟩
  · rw [huse]
    decide
  · exact (hpiled.held (place 0)).mpr (by decide)

end FsXfs.Mount
