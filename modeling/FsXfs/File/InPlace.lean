import FsXfs.File.Volume

/-!
# Overwriting in place

`write.rs`: `write_at`, which overwrites bytes a file already has, and `truncate`, which lowers a
size and keeps the blocks. Neither writes a record. Each returns the writes it asks of the device,
in order; a refusal comes before the first of them.
-/

namespace FsXfs.File

open Bytes

set_option autoImplicit false

namespace Volume

def refuseAfterCheckpoint (v : Volume) : Except Error Unit :=
  ensure (v.loggedAnything = false)
    (.unsupportedFeature "this mount has written a checkpoint that nothing has replayed, so the disk an in-place write would read is out of date; mount again after the log has been replayed")

structure Chunk where
  at_ : ℕ
  len : ℕ

section

variable (v : Volume) (ino : ℕ)

-- the loop of `plan_in_place_write`: a turn for each block, of which there are at most `len`
def planChunks (extents : List Extent) (offset len : ℕ) : ℕ → ℕ → Except Error (List Chunk)
  | 0, _ => .ok []
  | fuel + 1, done =>
    if done < len then do
      let pos := offset + done
      let fileBlock := pos / v.sb.blocksize
      let within := pos % v.sb.blocksize
      let chunk := min (v.sb.blocksize - within) (len - done)
      let e ← orElse (lookup extents fileBlock)
        (.unsupportedFeature s!"inode {ino}: file block {fileBlock} is a hole, and filling it would allocate blocks")
      ensure (e.unwritten = false)
        (.unsupportedFeature s!"inode {ino}: file block {fileBlock} is in an unwritten extent, and writing it would clear that flag in the extent list")
      let phys ← orElse (e.map fileBlock) (.panicked "lookup returned an extent covering this block")
      let rest ← planChunks extents offset len fuel (done + chunk)
      pure (⟨wrap64 (v.sb.fsblockOffset phys + within), chunk⟩ :: rest)
    else .ok []

def planInPlaceWrite (inode : Inode) (offset len : ℕ) : Except Error (List Chunk) := do
  let extents ← v.dataExtents ino inode
  planChunks v ino extents offset len len 0

end

def placeChunks (data : List UInt8) : ℕ → List Chunk → List DataWrite
  | _, [] => []
  | done, c :: rest => (c.at_, slice data done c.len) :: placeChunks data (done + c.len) rest

section

variable (v : Volume) (ino : ℕ)

def inPlaceShape (inode : Inode) (shared local_ : String) : Except Error Unit := do
  ensure (inode.realtime = false)
    (.unsupportedFeature s!"inode {ino} keeps its data on the real-time device")
  ensure (inode.shared = false) (.unsupportedFeature s!"inode {ino} {shared}")
  ensure (inode.format ≠ .local_) (.unsupportedFeature s!"inode {ino} {local_}")

def wouldGrow (end_ size : ℕ) : Error :=
  .unsupportedFeature s!"inode {ino}: writing to {end_} would grow the file past its {size} bytes, which changes the inode"

-- `copy` is the inode as the caller read it; the one on disk is read again
def writeAt (copy : Inode) (offset : ℕ) (data : List UInt8) : Except Error (List DataWrite) := do
  v.writable
  if data = [] then pure []
  else do
    v.refuseAfterCheckpoint
    ensure copy.regular .notAFile
    inPlaceShape ino copy
      "has reflinked extents; writing one in place would change what another inode reads"
      "stores its data inside the inode, so writing it is a metadata write"
    ensure (offset + data.length < 2 ^ 64)
      (.unsupportedFeature s!"inode {ino}: write range overflows a 64-bit offset")
    ensure (offset + data.length ≤ copy.size) (wouldGrow ino (offset + data.length) copy.size)
    let current ← v.inode ino
    ensure (offset + data.length ≤ current.size)
      (wouldGrow ino (offset + data.length) current.size)
    let plan ← v.planInPlaceWrite ino current offset data.length
    pure (placeChunks data 0 plan)

def needsBlocks (size newSize : ℕ) : Error :=
  .unsupportedFeature s!"inode {ino}: growing from {size} to {newSize} needs blocks that are not allocated"

def clearTail (copy : Inode) (newSize : ℕ) : Except Error (List DataWrite) :=
  let tail := newSize % v.sb.blocksize
  if tail = 0 then .ok []
  else do
    let _ ← v.inode ino
    match v.writeAt ino copy newSize (List.replicate (v.sb.blocksize - tail) 0) with
    | .ok writes => .ok writes
    -- a hole or an unwritten extent at the tail holds nothing to leak
    | .error (.unsupportedFeature _) => .ok []
    | .error e => .error e

def truncate (copy : Inode) (newSize : ℕ) : Except Error (List DataWrite × Option ℕ) := do
  v.writable
  ensure copy.regular .notAFile
  ensure (3 ≤ copy.version)
    (.unsupportedFeature s!"inode {ino} is version {copy.version}, which has no CRC and stores a different core")
  inPlaceShape ino copy
    "has reflinked extents; zeroing the tail of one in place would change what another inode reads"
    "stores its data inside the inode, so its length is part of the fork rather than a size to lower"
  ensure (newSize ≤ copy.size) (needsBlocks ino copy.size newSize)
  if newSize = copy.size then pure ([], none)
  else do
    let current ← v.inode ino
    ensure (newSize ≤ current.size) (needsBlocks ino current.size newSize)
    if newSize = current.size then pure ([], none)
    else do
      let zeros ← v.clearTail ino copy newSize
      v.refuseAfterCheckpoint
      let offset ← v.sb.inodeOffset ino
      pure (zeros, some offset)

end

/-! ## What a plan covers -/

section

variable {v : Volume} {ino : ℕ} {extents : List Extent} {offset len : ℕ}

theorem planChunks_spec {fuel done : ℕ} {chunks : List Chunk}
    (h : planChunks v ino extents offset len fuel done = .ok chunks) :
    ∀ c ∈ chunks, ∃ e ∈ extents, ∃ fileBlock phys within, e.unwritten = false ∧
      e.map fileBlock = some phys ∧ c.at_ = wrap64 (v.sb.fsblockOffset phys + within) ∧
      within + c.len ≤ v.sb.blocksize := by
  have hbs := v.accepted.geometry.blocksize_ge
  induction fuel generalizing done chunks with
  | zero =>
    cases h
    simp
  | succ fuel ih =>
    simp only [planChunks] at h
    split at h
    · simp only [bind_eq_ok, orElse_eq_ok, ensure_eq_ok, pure, Except.pure, Except.ok.injEq] at h
      obtain ⟨e, hlookup, _, hw, phys, hmap, rest, hrest, rfl⟩ := h
      intro c hc
      rcases List.mem_cons.mp hc with rfl | hc
      · refine ⟨e, (lookup_mem hlookup).1, _, phys, _, hw, hmap, rfl, ?_⟩
        have hmod := Nat.mod_lt (offset + done) (show 0 < v.sb.blocksize by omega)
        dsimp only
        omega
      · exact ih hrest c hc
    · cases h
      simp

end

theorem mem_placeChunks {data : List UInt8} {done : ℕ} {chunks : List Chunk} {w : DataWrite}
    (h : w ∈ placeChunks data done chunks) :
    ∃ c ∈ chunks, w.1 = c.at_ ∧ w.2.length ≤ c.len := by
  induction chunks generalizing done with
  | nil => simp [placeChunks] at h
  | cons c rest ih =>
    rcases List.mem_cons.mp h with rfl | h
    · exact ⟨c, by simp, rfl, by simp [slice]⟩
    · obtain ⟨c', hc', hw⟩ := ih h
      exact ⟨c', List.mem_cons_of_mem _ hc', hw⟩

end Volume

end FsXfs.File
