import FsXfs.File.Bounds
import FsXfs.File.Mapping

/-!
# Reading a file

`Filesystem::read_at`, for a regular file on the data device: block by block through the extents,
holes and unwritten extents left as zeros.
-/

namespace FsXfs.File

set_option autoImplicit false

/-- The byte a list of extents gives at a position of the file. -/
def byteAt (sb : Superblock) (disk : ℕ → UInt8) (extents : List Extent) (pos : ℕ) : UInt8 :=
  match lookup extents (pos / sb.blocksize) with
  | none => 0
  | some e =>
    if e.unwritten then 0
    else disk (wrap64 (sb.fsblockOffset (e.startblock + (pos / sb.blocksize - e.startoff)) +
      pos % sb.blocksize))

namespace Volume

section

variable (v : Volume) (disk : ℕ → UInt8)

def readChunk (extents : List Extent) (pos chunk : ℕ) : List UInt8 :=
  match lookup extents (pos / v.sb.blocksize) with
  -- no extent is a hole, and an unwritten one has never been written
  | none => List.replicate chunk 0
  | some e =>
    if e.unwritten then List.replicate chunk 0
    else (List.range chunk).map fun i =>
      disk (wrap64 (v.sb.fsblockOffset (e.startblock + (pos / v.sb.blocksize - e.startoff)) +
        pos % v.sb.blocksize) + i)

def readChunks (extents : List Extent) (offset want : ℕ) : ℕ → ℕ → List UInt8
  | 0, _ => []
  | fuel + 1, done =>
    if done < want then
      let pos := offset + done
      let chunk := min (v.sb.blocksize - pos % v.sb.blocksize) (want - done)
      readChunk v disk extents pos chunk ++ readChunks extents offset want fuel (done + chunk)
    else []

def readAt (ino : ℕ) (inode : Inode) (offset len : ℕ) : Except Error (List UInt8) := do
  ensure inode.regular .notAFile
  if inode.size ≤ offset then pure []
  else do
    let extents ← v.dataExtents ino inode
    let want := min len (inode.size - offset)
    pure (readChunks v disk extents offset want want 0)

end

/-! ## Byte by byte -/

section

variable {v : Volume} {disk : ℕ → UInt8} {extents : List Extent}

def Reads (v : Volume) (disk : ℕ → UInt8) (ino pos : ℕ) (x : UInt8) : Prop :=
  ∃ inode, v.inode ino = .ok inode ∧ v.readAt disk ino inode pos 1 = .ok [x]

theorem readAt_one {ino pos : ℕ} {inode : Inode} {x : UInt8} :
    v.readAt disk ino inode pos 1 = .ok [x] ↔ inode.regular = true ∧ pos < inode.size ∧
      ∃ extents, v.dataExtents ino inode = .ok extents ∧ byteAt v.sb disk extents pos = x := by
  have hbs := v.accepted.geometry.blocksize_ge
  have hmod := Nat.mod_lt pos (show 0 < v.sb.blocksize by omega)
  have hone : ∀ extents, pos < inode.size →
      readChunks v disk extents pos (min 1 (inode.size - pos)) (min 1 (inode.size - pos)) 0 =
        [byteAt v.sb disk extents pos] := by
    intro extents hlt
    rw [show min 1 (inode.size - pos) = 1 by omega, readChunks, if_pos (by omega)]
    dsimp only
    rw [show min (v.sb.blocksize - (pos + 0) % v.sb.blocksize) (1 - 0) = 1 by
      rw [Nat.add_zero]; omega, readChunks, List.append_nil]
    unfold readChunk byteAt
    cases lookup extents (pos / v.sb.blocksize) with
    | none => simp
    | some e =>
      simp only [Nat.add_zero]
      split
      · rfl
      · rfl
  unfold readAt
  simp only [bind_eq_ok, ensure_eq_ok]
  constructor
  · rintro ⟨_, hregular, h⟩
    split at h
    · cases Except.ok.inj h
    · next hlt =>
      obtain ⟨extents, hextents, h⟩ := bind_eq_ok.mp h
      have hbyte := (hone extents (by omega)).symm.trans (Except.ok.inj h)
      exact ⟨hregular, by omega, extents, hextents, List.singleton_injective hbyte⟩
  · rintro ⟨hregular, hlt, extents, hextents, rfl⟩
    refine ⟨(), hregular, ?_⟩
    rw [if_neg (by omega)]
    exact bind_eq_ok.mpr ⟨extents, hextents, congrArg Except.ok (hone extents hlt)⟩

theorem reads_iff {ino pos : ℕ} {x : UInt8} {inode : Inode} (hinode : v.inode ino = .ok inode)
    (hregular : inode.regular = true) (hextents : v.dataExtents ino inode = .ok extents) :
    Reads v disk ino pos x ↔ pos < inode.size ∧ byteAt v.sb disk extents pos = x := by
  constructor
  · rintro ⟨inode', hinode', h⟩
    obtain rfl := Except.ok.inj (hinode.symm.trans hinode')
    obtain ⟨-, hlt, extents', hextents', hx⟩ := readAt_one.mp h
    obtain rfl := Except.ok.inj (hextents.symm.trans hextents')
    exact ⟨hlt, hx⟩
  · rintro ⟨hlt, hx⟩
    exact ⟨inode, hinode, readAt_one.mpr ⟨hregular, hlt, extents, hextents, hx⟩⟩

end

end Volume

/-! ## Where a byte comes from -/

section

variable {sb : Superblock} {disk : ℕ → UInt8} {l : List Extent} {pos : ℕ}

theorem byteAt_of_mapsTo (hl : Sorted l) {phys : ℕ} {u : Bool}
    (h : MapsTo l (pos / sb.blocksize) phys u) :
    byteAt sb disk l pos =
      if u then 0 else disk (wrap64 (sb.fsblockOffset phys + pos % sb.blocksize)) := by
  obtain ⟨e, he, hc, rfl, rfl⟩ := h
  rw [byteAt, (lookup_eq_some_iff hl).mpr ⟨he, hc⟩]

theorem byteAt_of_hole (hl : Sorted l) (h : ∀ phys u, ¬MapsTo l (pos / sb.blocksize) phys u) :
    byteAt sb disk l pos = 0 := by
  rw [byteAt, (lookup_eq_none_iff hl).mpr h]

/-- Two lists that map two blocks alike give the same bytes there, when the disk holds the same bytes
where the blocks are. -/
theorem byteAt_eq_of_mapsTo {disk' : ℕ → UInt8} {l' : List Extent} {pos' : ℕ} (hl : Sorted l)
    (hl' : Sorted l') (hmod : pos % sb.blocksize = pos' % sb.blocksize)
    (hmaps : ∀ phys u, MapsTo l (pos / sb.blocksize) phys u ↔
      MapsTo l' (pos' / sb.blocksize) phys u)
    (hdisk : ∀ phys, MapsTo l (pos / sb.blocksize) phys false →
      disk (wrap64 (sb.fsblockOffset phys + pos % sb.blocksize)) =
        disk' (wrap64 (sb.fsblockOffset phys + pos % sb.blocksize))) :
    byteAt sb disk l pos = byteAt sb disk' l' pos' := by
  by_cases h : ∃ phys u, MapsTo l (pos / sb.blocksize) phys u
  · obtain ⟨phys, u, h⟩ := h
    rw [byteAt_of_mapsTo hl h, byteAt_of_mapsTo hl' ((hmaps phys u).mp h), ← hmod]
    cases u with
    | true => rfl
    | false => exact hdisk phys h
  · have hnone : ∀ phys u, ¬MapsTo l (pos / sb.blocksize) phys u := by
      simpa using h
    rw [byteAt_of_hole hl hnone,
      byteAt_of_hole hl' fun phys u h' => hnone phys u ((hmaps phys u).mpr h')]

end

end FsXfs.File
