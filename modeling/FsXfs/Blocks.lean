import FsXfs.Logbook

/-!
# Blocks changing hands

A journalled operation as the blocks see it: the blocks it takes and gives back, the file data it
writes in place before its record, the record, and what its caller then does to the overlay. Beside
the mount a `Session` keeps what each basic block is used for, which the source has in its free
space trees, block maps and directories.
-/

namespace FsXfs.Mount

open Log Redo StateProg Cut

set_option autoImplicit false

/-! ## Giving blocks back -/

inductive Use where
  | free
  | data
  | metadata
  deriving DecidableEq, Repr

/-- The paths that give blocks back to free space: `DirBlocks::release`; the extents of a data fork
(`free_file_extents`, `truncate_to`); the blocks of a data fork's map; `InodeTreeBlocks::put`; and an
attribute fork's blocks when its inode goes (`release_freed_attribute_fork`), when parent pointers
rebuild it (`ParentFork::release`) and when an attribute is written (`write_xattr`). -/
inductive Release where
  | directory
  | extents
  | blockMap
  | inodeTree
  | goneFork
  | rebuiltFork
  | replacedFork
  deriving DecidableEq, Repr

namespace Release

-- `release_attribute_blocks` alone logs cancels
def cancels : Release → Bool
  | .goneFork | .rebuiltFork | .replacedFork => true
  | _ => false

-- and only the cancels of an inode that goes reach `cancelled_buffers`
def forgets : Release → Bool
  | .goneFork => true
  | _ => false

end Release

-- `BufferItem::cancel`, as recovery reads it: it carries no image
def cancelItem (blkno len : ℕ) : Item :=
  ⟨blkno, len, true, blkno, 0, []⟩

/-- Filesystem blocks given back, from basic block `bb`. -/
structure Given where
  path : Release
  bb : ℕ
  blocks : ℕ
  deriving DecidableEq, Repr

namespace Given

def Has (sectors : ℕ) (g : Given) (b : ℕ) : Prop :=
  g.bb ≤ b ∧ b < g.bb + g.blocks * sectors

instance (sectors : ℕ) (g : Given) (b : ℕ) : Decidable (g.Has sectors b) :=
  inferInstanceAs (Decidable (_ ∧ _))

def cancelItems (sectors : ℕ) (g : Given) : List Item :=
  if g.path.cancels then
    (List.range g.blocks).map fun i => cancelItem (g.bb + i * sectors) sectors
  else
    []

end Given

/-! ## Operations -/

/-- A journalled operation: its record, the blocks it takes and gives back, and the bytes it writes
in place. `inPlace` is `none` for an operation that neither writes nor flushes before its record. -/
structure Change (decode : List (List UInt8) → List Item) (sectors : ℕ) extends
    Checkpoint decode where
  given : List Given
  takenData : List (ℕ × ℕ)
  takenMetadata : List (ℕ × ℕ)
  inPlace : Option (List (ℕ × List UInt8))
  syncsFirst : Bool
  inside : ∀ item ∈ items, item.Inside
  cancels : items.filter Item.cancel = given.flatMap (Given.cancelItems sectors)
  -- `write_xattr` pushes before it places the new fork
  replaced : ∀ g ∈ given, g.path = .replacedFork → syncsFirst = true

def InRuns (runs : List (ℕ × ℕ)) (b : ℕ) : Prop :=
  ∃ run ∈ runs, run.1 ≤ b ∧ b < run.1 + run.2

instance (runs : List (ℕ × ℕ)) (b : ℕ) : Decidable (InRuns runs b) :=
  inferInstanceAs (Decidable (∃ run ∈ runs, run.1 ≤ b ∧ b < run.1 + run.2))

namespace Change

variable {decode : List (List UInt8) → List Item} {sectors : ℕ}

def Gives (op : Change decode sectors) (b : ℕ) : Prop :=
  ∃ g ∈ op.given, g.Has sectors b

instance (op : Change decode sectors) (b : ℕ) : Decidable (op.Gives b) :=
  inferInstanceAs (Decidable (∃ g ∈ op.given, g.Has sectors b))

def Forgets (op : Change decode sectors) (b : ℕ) : Prop :=
  ∃ g ∈ op.given, g.path.forgets = true ∧ g.Has sectors b

def useAfter (op : Change decode sectors) (use : ℕ → Use) (b : ℕ) : Use :=
  if InRuns op.takenData b then .data
  else if InRuns op.takenMetadata b then .metadata
  else if op.Gives b then .free
  else use b

def images (op : Change decode sectors) : List Item :=
  op.items.filter fun item => !item.cancel

def forgotten (op : Change decode sectors) : List Item :=
  (op.given.filter fun g => g.path.forgets).flatMap (Given.cancelItems sectors)

def dataEvents (op : Change decode sectors) : List Event :=
  (op.inPlace.getD []).map fun w => .data w.1 w.2

end Change

def writeInPlace : List (ℕ × List UInt8) → Prog Unit
  | [] => pure ()
  | (at_, bytes) :: rest => do
    write (.data at_ bytes)
    writeInPlace rest

def cancelledBuffers (m : Mount) (cancels : List Item) : Mount :=
  { m with overlay := cancels.foldl (fun o c => o.forget (c.blkno * 512) (c.len * 512)) m.overlay }

section

variable {decode : List (List UInt8) → List Item} {sectors : ℕ}

def syncFirst (op : Change decode sectors) : Prog Unit :=
  if op.syncsFirst then sync else pure ()

def writeData (op : Change decode sectors) : Prog Unit :=
  match op.inPlace with
  | none => pure ()
  | some writes => do
    writeInPlace writes
    flush

def prepare (op : Change decode sectors) : Prog Unit := do
  writableDevice
  syncFirst op
  writeData op

def finished (m : Mount) (op : Change decode sectors) (lsn : ℕ) : Mount :=
  ((m.cancelledBuffers op.forgotten).loggedItems op.images).emit [.returned lsn op.items]

def perform (op : Change decode sectors) : Prog ℕ := do
  prepare op
  let lsn ← commitRecord op.build
  modify fun m => m.finished op lsn
  pure lsn

end

/-! ## Sessions -/

structure Session where
  mount : Mount
  use : ℕ → Use

inductive Session.Step (decode : List (List UInt8) → List Item) (sectors : ℕ) where
  | operation (op : Change decode sectors)
  | sync

namespace Session

variable {decode : List (List UInt8) → List Item} {sectors : ℕ}

def step (s : Session) : Step decode sectors → Session
  | .operation op =>
    match perform op s.mount with
    | .ok _ m => ⟨m, op.useAfter s.use⟩
    | .error _ m => ⟨m, s.use⟩
  | .sync => ⟨finalState (Mount.sync s.mount), s.use⟩

def run (s : Session) (steps : List (Step decode sectors)) : Session :=
  steps.foldl step s

end Session

/-! ## File data -/

def Event.dataPatch? : Event → Option (Patch ℕ UInt8)
  | .data at_ bytes => some (chunkPatch at_ bytes)
  | _ => none

def dataPatches (events : List Event) : List (Patch ℕ UInt8) :=
  events.filterMap Event.dataPatch?

def fileBytes (m : Mount) : ℕ → UInt8 :=
  applyAll (dataPatches m.trace) m.base.home

namespace Session

variable {decode : List (List UInt8) → List Item} {sectors : ℕ}

/-- What the allocator and `write` promise of an operation. -/
structure Allowed (s : Session) (op : Change decode sectors) : Prop where
  data_free : ∀ b, InRuns op.takenData b → s.use b = .free
  data_written : ∀ a, InRuns op.takenData (a / 512) → Covers (dataPatches op.dataEvents) a
  metadata_free : ∀ b, InRuns op.takenMetadata b → s.use b = .free ∨ op.Gives b

def AllowedStep (s : Session) : Step decode sectors → Prop
  | .operation op => s.Allowed op
  | .sync => True

def Along (P : Session → Step decode sectors → Prop) (s : Session) :
    List (Step decode sectors) → Prop
  | [] => True
  | next :: steps => P s next ∧ Along P (s.step next) steps

def AllowedAll (s : Session) (steps : List (Step decode sectors)) : Prop :=
  s.Along AllowedStep steps

theorem along_append {P : Session → Step decode sectors → Prop} {s : Session}
    {steps : List (Step decode sectors)} {next : Step decode sectors} :
    s.Along P (steps ++ [next]) ↔ s.Along P steps ∧ P (s.run steps) next := by
  induction steps generalizing s with
  | nil => simp [Along, run]
  | cons first steps ih =>
    change P s first ∧ Along P (s.step first) (steps ++ [next]) ↔ _
    rw [ih, ← and_assoc]
    rfl

end Session

/-! ## How an operation ends -/

section

variable {decode : List (List UInt8) → List Item} {sectors : ℕ} {m m' m₁ : Mount} {e : Error}
  {op : Change decode sectors}

variable {writes : List (ℕ × List UInt8)} {u : Unit}

theorem writeInPlace_eq (writes : List (ℕ × List UInt8)) :
    writeInPlace writes = writeEach (writes.map fun w => .data w.1 w.2) := by
  induction writes with
  | nil => rfl
  | cons w writes ih => rw [writeInPlace, ih]; rfl

def synced (m : Mount) (op : Change decode sectors) : Mount :=
  if op.syncsFirst then m.settle else m

theorem syncFirst_eq_ok (h : syncFirst op m = .ok u m') : m' = m.synced op := by
  unfold syncFirst at h
  unfold synced
  cases hfirst : op.syncsFirst with
  | true =>
    rw [hfirst, if_pos rfl] at h
    obtain ⟨-, -, rfl⟩ := sync_eq_ok h
    rfl
  | false =>
    rw [hfirst, if_neg Bool.false_ne_true] at h
    obtain ⟨-, rfl⟩ := pure_eq_ok.mp h
    rfl

theorem writeData_eq_ok (h : writeData op m = .ok u m') : m' = m.emit op.dataEvents := by
  unfold writeData at h
  unfold Change.dataEvents
  cases hplace : op.inPlace with
  | none =>
    rw [hplace] at h
    obtain ⟨-, rfl⟩ := pure_eq_ok.mp h
    exact (emit_nil _).symm
  | some writes =>
    rw [hplace] at h
    obtain ⟨_, m₁, hwrites, hflush⟩ := seq_eq_ok.mp h
    obtain ⟨-, rfl⟩ := flush_eq_ok.mp hflush
    exact writeEach_eq_ok (writeInPlace_eq _ ▸ hwrites)

theorem writeData_eq_error (h : writeData op m = .error e m') :
    m.DeviceFailed e ∧ ∃ events, events <+: op.dataEvents ∧ m' = m.emit events := by
  unfold writeData at h
  unfold Change.dataEvents
  cases hplace : op.inPlace with
  | none =>
    rw [hplace] at h
    exact absurd h pure_ne_error
  | some writes =>
    rw [hplace] at h
    rcases seq_eq_error.mp h with hwrites | ⟨_, m₁, hwrites, hflush⟩
    · exact writeEach_eq_error (writeInPlace_eq _ ▸ hwrites)
    · obtain rfl := writeEach_eq_ok (writeInPlace_eq _ ▸ hwrites)
      obtain ⟨hio, rfl⟩ := flush_eq_error hflush
      exact ⟨hio, _, List.prefix_refl _, rfl⟩

theorem writeData_reliable (hrel : m.Reliable) : writeData op m = .ok () (m.emit op.dataEvents) := by
  cases hres : writeData op m with
  | ok u m' => rw [writeData_eq_ok hres]
  | error e m' => exact absurd hrel (writeData_eq_error hres).1.2

theorem prepare_eq_ok (h : prepare op m = .ok u m') :
    m' = (m.synced op).emit op.dataEvents := by
  obtain ⟨_, m₀, hdev, h⟩ := seq_eq_ok.mp h
  obtain ⟨-, -, rfl⟩ := writableDevice_eq_ok.mp hdev
  obtain ⟨_, m₁, hsync, h⟩ := seq_eq_ok.mp h
  obtain rfl := syncFirst_eq_ok hsync
  exact writeData_eq_ok h

/-- An operation that does not reach its record is refused, stops in its push, or has written some
of its data. -/
theorem prepare_eq_error (h : prepare op m = .error e m') :
    m' = m ∨ op.syncsFirst = true ∧ sync m = .error e m' ∨
      ∃ events, events <+: op.dataEvents ∧ m' = (m.synced op).emit events := by
  rcases seq_eq_error.mp h with hdev | ⟨_, m₀, hdev, h⟩
  · exact .inl (writableDevice_eq_error hdev).1
  obtain ⟨-, -, rfl⟩ := writableDevice_eq_ok.mp hdev
  rcases seq_eq_error.mp h with hsync | ⟨_, m₁, hsync, h⟩
  · unfold syncFirst at hsync
    split at hsync
    · next hfirst => exact .inr (.inl ⟨hfirst, hsync⟩)
    · exact absurd hsync pure_ne_error
  · obtain rfl := syncFirst_eq_ok hsync
    exact .inr (.inr (writeData_eq_error h).2)

def prepared (m : Mount) (op : Change decode sectors) : Mount :=
  (m.synced op).emit op.dataEvents

theorem perform_cases (op : Change decode sectors) (m : Mount) :
    (∃ e m', perform op m = .error e m' ∧ prepare op m = .error e m') ∨
      (∃ e m', perform op m = .error e m' ∧ commitRecord op.build (m.prepared op) = .error e m') ∨
      ∃ lsn m', perform op m = .ok lsn (m'.finished op lsn) ∧
        commitRecord op.build (m.prepared op) = .ok lsn m' := by
  cases hprep : prepare op m with
  | error e m' => exact .inl ⟨e, m', seq_eq_error.mpr (.inl hprep), rfl⟩
  | ok u m₁ =>
    obtain rfl := prepare_eq_ok hprep
    cases hcommit : commitRecord op.build (m.prepared op) with
    | error e m' =>
      refine .inr (.inl ⟨e, m', ?_, rfl⟩)
      exact seq_eq_error.mpr (.inr ⟨u, _, hprep, seq_eq_error.mpr (.inl hcommit)⟩)
    | ok lsn m' =>
      refine .inr (.inr ⟨lsn, m', ?_, rfl⟩)
      exact seq_eq_ok.mpr ⟨u, _, hprep, seq_eq_ok.mpr ⟨lsn, m', hcommit, rfl⟩⟩

theorem Session.step_of_writeFailed {s : Session} (h : s.mount.writeFailed = true)
    (next : Session.Step decode sectors) : s.step next = s := by
  have hdev : writableDevice s.mount = .error (.io _) s.mount := if_pos h
  cases next with
  | operation op =>
    have hprep : prepare op s.mount = .error (.io _) s.mount := seq_eq_error.mpr (.inl hdev)
    have hop : perform op s.mount = .error (.io _) s.mount := seq_eq_error.mpr (.inl hprep)
    rw [Session.step, hop]
  | sync =>
    have hsync : Mount.sync s.mount = .error (.io _) s.mount := seq_eq_error.mpr (.inl hdev)
    rw [Session.step, hsync]
    rfl

/-! ## The overlay after an operation -/

theorem held_cancelledBuffers (m : Mount) (cancels : List Item) (b : ℕ) :
    (m.cancelledBuffers cancels).overlay.Held b ↔ m.overlay.Held b ∧
      ∀ c ∈ cancels, ¬(c.blkno * 512 ≤ b * 512 ∧ b * 512 < c.blkno * 512 + c.len * 512) := by
  change (cancels.foldl (fun o c => o.forget (c.blkno * 512) (c.len * 512)) m.overlay).Held b ↔ _
  generalize m.overlay = o
  induction cancels generalizing o with
  | nil => simp
  | cons c cancels ih =>
    rw [List.foldl_cons, ih, Overlay.held_forget, and_assoc, List.forall_mem_cons]

theorem held_loggedItems (m : Mount) (items : List Item) (b : ℕ) :
    (m.loggedItems items).overlay.Held b ↔ m.overlay.Held b ∨ ∃ item ∈ items, item.Spans b := by
  induction items generalizing m with
  | nil => simp [loggedItems]
  | cons item items ih =>
    have hlen : (item.image m.view).length = item.size := by
      simp [Item.image]
    have hfirst : (m.loggedItem item).overlay.Held b ↔ m.overlay.Held b ∨ item.Spans b := by
      change (m.overlay.wrote _ _ _).Held b ↔ _
      rw [Overlay.held_wrote, hlen, or_comm]
      rfl
    change ((m.loggedItem item).loggedItems items).overlay.Held b ↔ _
    rw [ih, hfirst, or_assoc, List.exists_mem_cons_iff]

theorem Given.cancelItems_reach {g : Given} (hcancels : g.path.cancels = true) {b : ℕ}
    (hb : g.Has sectors b) :
    ∃ c ∈ g.cancelItems sectors, c.blkno * 512 ≤ b * 512 ∧ b * 512 < c.blkno * 512 + c.len * 512 := by
  obtain ⟨hlo, hhi⟩ := hb
  have hpos : 0 < sectors := by
    rcases Nat.eq_zero_or_pos sectors with hzero | hpos
    · subst hzero
      omega
    · exact hpos
  have hdiv := Nat.div_add_mod (b - g.bb) sectors
  have hmod := Nat.mod_lt (b - g.bb) hpos
  have hlt : (b - g.bb) / sectors < g.blocks := by
    rw [Nat.div_lt_iff_lt_mul hpos]
    omega
  rw [Given.cancelItems, if_pos hcancels]
  refine ⟨_, List.mem_map.mpr ⟨_, List.mem_range.mpr hlt, rfl⟩, ?_⟩
  change (g.bb + (b - g.bb) / sectors * sectors) * 512 ≤ b * 512 ∧
    b * 512 < (g.bb + (b - g.bb) / sectors * sectors) * 512 + sectors * 512
  rw [Nat.mul_comm] at hdiv
  omega

theorem forgets_cancels {path : Release} (h : path.forgets = true) : path.cancels = true := by
  cases path <;> first | rfl | cases h

/-- A block is held after an operation if one of its images spans it, or it was held before and is
not given back by a path that drops images. -/
theorem held_finished {lsn b : ℕ} (h : (m.finished op lsn).overlay.Held b) :
    (∃ item ∈ op.images, item.Spans b) ∨ m.overlay.Held b ∧ ¬op.Forgets b := by
  rcases (held_loggedItems _ op.images b).mp h with hbefore | himage
  · obtain ⟨hheld, hnot⟩ := (held_cancelledBuffers m op.forgotten b).mp hbefore
    refine .inr ⟨hheld, fun ⟨g, hg, hforgets, hhas⟩ => ?_⟩
    obtain ⟨c, hc, hreach⟩ := Given.cancelItems_reach (forgets_cancels hforgets) hhas
    exact hnot c (List.mem_flatMap.mpr ⟨g, List.mem_filter.mpr ⟨hg, hforgets⟩, hc⟩) hreach
  · exact .inl himage

theorem finished_eq (m : Mount) (op : Change decode sectors) (lsn : ℕ) :
    m.finished op lsn = { m with
      overlay := (m.finished op lsn).overlay
      trace := m.trace ++ [.returned lsn op.items] } := by
  change ((m.cancelledBuffers op.forgotten).loggedItems op.images).emit _ = _
  rw [loggedItems_eq op.images (m.cancelledBuffers op.forgotten)]
  rfl

theorem disk_finished (m : Mount) (op : Change decode sectors) (lsn : ℕ) :
    (m.finished op lsn).disk = m.disk := by
  rw [finished_eq]
  exact List.foldl_append

/-! ## What is written in place -/

theorem dataPatches_append (as bs : List Event) :
    dataPatches (as ++ bs) = dataPatches as ++ dataPatches bs :=
  List.filterMap_append

theorem dataPatches_journal {events : List Event} (h : ∀ ev ∈ events, ev.journal = true) :
    dataPatches events = [] := by
  rw [dataPatches, List.filterMap_eq_nil_iff]
  intro ev hev
  have hj := h ev hev
  cases ev with
  | data at_ bytes => exact absurd hj Bool.false_ne_true
  | _ => rfl

theorem fileBytes_emit (m : Mount) (events : List Event) :
    (m.emit events).fileBytes = applyAll (dataPatches events) m.fileBytes := by
  change applyAll (dataPatches (m.trace ++ events)) m.base.home = _
  rw [dataPatches_append, applyAll_append]
  rfl

theorem fileBytes_finished (m : Mount) (op : Change decode sectors) (lsn : ℕ) :
    (m.finished op lsn).fileBytes = m.fileBytes := by
  rw [finished_eq]
  exact fileBytes_emit m [.returned lsn op.items]

theorem disk_emit_data (m : Mount) {events : List Event} (h : events <+: op.dataEvents) :
    (m.emit events).disk = ⟨m.disk.ring, applyAll (dataPatches events) m.disk.home⟩ := by
  obtain ⟨writes, -, rfl⟩ := List.prefix_map_iff.mp h
  clear h
  rw [disk_emit]
  generalize m.disk = d
  induction writes generalizing d with
  | nil => rfl
  | cons w writes ih => exact ih _

end

end FsXfs.Mount
