import FsXfs.File.Read
import FsXfs.Lib.Bytes

/-!
# Reading a file, and where the bytes come from

`Filesystem::read_at` whole: a regular file or a symbolic link, its data inline, on the data device or
on the realtime device, with every read it makes of a device. A device is its bytes and the reads it
refuses.
-/

namespace FsXfs.File

open Bytes

set_option autoImplicit false

/-! ## Devices and files -/

structure Disk where
  size : ℕ
  size_lt : size < 2 ^ 64
  byte : ℕ → UInt8
  fault : ℕ → ℕ → Option Error

def Disk.readAt (disk : Disk) (offset len : ℕ) : Except Error (List UInt8) :=
  match disk.fault offset len with
  | some e => .error e
  | none =>
    if offset + len ≤ disk.size then .ok ((List.range len).map fun i => disk.byte (offset + i))
    else .error (.io s!"{len} bytes at byte {offset} are past the end of the device")

structure OpenFile where
  inode : Inode
  symlink : Bool
  fork : List UInt8

/-- What a mount reads: `check_realtime_device` has multiplied the realtime section out. -/
structure Sources where
  volume : Volume
  data : Disk
  rblocks : ℕ
  realtime : Option {_disk : Disk // rblocks * volume.sb.blocksize < 2 ^ 64}

namespace Sources

section

variable (src : Sources) (ino : ℕ) (file : OpenFile)

def checkRealtimeExtents (extents : List Extent) : Except Error Unit :=
  match extents.zipIdx.find? fun p =>
      decide (p.1.blockcount = 0) || decide (src.rblocks < p.1.startblock + p.1.blockcount) with
  | none => .ok ()
  | some (e, i) =>
    .error (.badSuperblock s!"inode {ino}: realtime extent {i} maps {e.blockcount} blocks at block {e.startblock}, outside the {src.rblocks}-block realtime section")

def fileExtents : Except Error (List Extent × Disk) :=
  if file.inode.realtime then do
    let realtime ← orElse src.realtime (.realtimeDeviceAbsent ino)
    let extents ← src.volume.forkExtents ino file.inode
    src.checkRealtimeExtents ino extents
    pure (extents, realtime.val)
  else do
    let extents ← src.volume.dataExtents ino file.inode
    pure (extents, src.data)

def physicalAt (phys within : ℕ) : ℕ :=
  if file.inode.realtime then wrap64 (wrap64 (phys * src.volume.sb.blocksize) + within)
  else wrap64 (src.volume.sb.fsblockOffset phys + within)

def deviceRead (disk : Disk) (at_ chunk : ℕ) : Except Error (List UInt8) :=
  match disk.readAt at_ chunk with
  | .ok bytes => .ok bytes
  | .error e =>
    if file.inode.realtime then
      .error (.io s!"inode {ino}: realtime device read of {chunk} bytes at byte {at_} failed")
    else .error e

/-- One step of the copy: what it puts in the buffer, and what it reads. -/
def readChunk (extents : List Extent) (disk : Disk) (pos chunk : ℕ) :
    Except Error (List UInt8 × List (ℕ × ℕ)) :=
  let fileBlock := pos / src.volume.sb.blocksize
  match lookup extents fileBlock with
  | none => .ok (List.replicate chunk 0, [])
  | some e =>
    if e.unwritten then .ok (List.replicate chunk 0, [])
    else do
      let at_ := src.physicalAt file (e.startblock + (fileBlock - e.startoff))
        (pos % src.volume.sb.blocksize)
      let bytes ← deviceRead ino file disk at_ chunk
      pure (bytes, [(at_, chunk)])

def readChunks (extents : List Extent) (disk : Disk) (offset want : ℕ) :
    ℕ → ℕ → Except Error (List UInt8 × List (ℕ × ℕ))
  | 0, _ => .ok ([], [])
  | fuel + 1, done =>
    if done < want then do
      let pos := offset + done
      let chunk := min (src.volume.sb.blocksize - pos % src.volume.sb.blocksize) (want - done)
      let (bytes, reads) ← src.readChunk ino file extents disk pos chunk
      let (bytes', reads') ← readChunks extents disk offset want fuel (done + chunk)
      pure (bytes ++ bytes', reads ++ reads')
    else .ok ([], [])

def readInline (offset len : ℕ) : List UInt8 :=
  let held := min file.inode.size file.fork.length
  let from_ := min offset held
  slice file.fork from_ (min len (held - from_))

def readAt (offset len : ℕ) : Except Error (List UInt8 × List (ℕ × ℕ)) := do
  ensure (file.inode.regular = true ∨ file.symlink = true) .notAFile
  if file.inode.size ≤ offset then pure ([], [])
  else if file.inode.format = .local_ then pure (readInline file offset len, [])
  else do
    let (extents, disk) ← src.fileExtents ino file
    let want := min len (file.inode.size - offset)
    src.readChunks ino file extents disk offset want want 0

end

/-! ## What it should return -/

section

variable (src : Sources) (file : OpenFile)

-- realtime blocks are counted from the start of their device
def blockStart (phys : ℕ) : ℕ :=
  if file.inode.realtime then phys * src.volume.sb.blocksize else FsXfs.blockStart src.volume.sb phys

/-- The bytes of the file from `offset`, and reads of its written blocks alone. -/
structure Right (extents : List Extent) (disk : Disk) (offset want : ℕ) (bytes : List UInt8)
    (reads : List (ℕ × ℕ)) : Prop where
  length : bytes.length = want
  written : ∀ i < want, ∀ phys,
    MapsTo extents ((offset + i) / src.volume.sb.blocksize) phys false →
      bytes[i]? = some (disk.byte (src.blockStart file phys + (offset + i) % src.volume.sb.blocksize))
  zeros : ∀ i < want,
    (∀ phys, ¬MapsTo extents ((offset + i) / src.volume.sb.blocksize) phys false) → bytes[i]? = some 0
  inside : ∀ r ∈ reads, ∀ k < r.2, ∃ block phys, MapsTo extents block phys false ∧
    src.blockStart file phys ≤ r.1 + k ∧
    r.1 + k < src.blockStart file phys + src.volume.sb.blocksize

/-- The written blocks of the range start where 64 bits can say. -/
def InReach (extents : List Extent) (offset want : ℕ) : Prop :=
  ∀ i < want, ∀ phys, MapsTo extents ((offset + i) / src.volume.sb.blocksize) phys false →
    src.blockStart file phys < 2 ^ 64

end

/-! ## The loop -/

section

variable {src : Sources} {ino : ℕ} {file : OpenFile} {extents : List Extent} {disk : Disk}

variable {chunk pos : ℕ} {bytes : List UInt8} {reads : List (ℕ × ℕ)}

theorem deviceRead_ok {at_ : ℕ} (h : deviceRead ino file disk at_ chunk = .ok bytes) :
    bytes = (List.range chunk).map (fun i => disk.byte (at_ + i)) ∧ at_ + chunk ≤ disk.size := by
  unfold deviceRead at h
  split at h
  next bytes' hread =>
    cases h
    unfold Disk.readAt at hread
    split at hread
    · cases hread
    · split at hread
      next hfit => exact ⟨(Except.ok.inj hread).symm, hfit⟩
      next => cases hread
  next =>
    split at h
    · cases h
    · cases h

/-- A read of the file's block `phys`, from its byte `within` on. -/
structure FromBlock (src : Sources) (file : OpenFile) (disk : Disk) (r : ℕ × ℕ) (phys within : ℕ) :
    Prop where
  eq : r.1 = src.physicalAt file phys within
  fits : within + r.2 ≤ src.volume.sb.blocksize
  reached : r.1 + r.2 ≤ disk.size

/-- What a run of the loop returns, from `pos` on. -/
structure Copied (src : Sources) (file : OpenFile) (extents : List Extent) (disk : Disk) (pos n : ℕ)
    (bytes : List UInt8) (reads : List (ℕ × ℕ)) : Prop where
  length : bytes.length = n
  origin : ∀ r ∈ reads, ∃ i < n, ∃ phys within,
    MapsTo extents ((pos + i) / src.volume.sb.blocksize) phys false ∧
      FromBlock src file disk r phys within
  written : ∀ i < n, ∀ phys, MapsTo extents ((pos + i) / src.volume.sb.blocksize) phys false →
    ∃ r ∈ reads, ∃ within k, FromBlock src file disk r phys within ∧ k < r.2 ∧
      within + k = (pos + i) % src.volume.sb.blocksize ∧ bytes[i]? = some (disk.byte (r.1 + k))
  zeros : ∀ i < n, (∀ phys, ¬MapsTo extents ((pos + i) / src.volume.sb.blocksize) phys false) →
    bytes[i]? = some 0

theorem Copied.append {n n' : ℕ} {bytes' : List UInt8} {reads' : List (ℕ × ℕ)}
    (h : Copied src file extents disk pos n bytes reads)
    (h' : Copied src file extents disk (pos + n) n' bytes' reads') :
    Copied src file extents disk pos (n + n') (bytes ++ bytes') (reads ++ reads') where
  length := by rw [List.length_append, h.length, h'.length]
  origin := by
    intro r hr
    rcases List.mem_append.mp hr with hr | hr
    · obtain ⟨i, hi, hfrom⟩ := h.origin r hr
      exact ⟨i, by omega, hfrom⟩
    · obtain ⟨i, hi, hfrom⟩ := h'.origin r hr
      refine ⟨n + i, by omega, ?_⟩
      rw [← Nat.add_assoc]
      exact hfrom
  written := by
    intro i hi phys hmaps
    by_cases hlt : i < n
    · obtain ⟨r, hr, within, k, hfrom, hk, hwithin, hbyte⟩ := h.written i hlt phys hmaps
      refine ⟨r, List.mem_append_left _ hr, within, k, hfrom, hk, hwithin, ?_⟩
      rw [List.getElem?_append_left (by rw [h.length]; exact hlt)]
      exact hbyte
    · have hsum : pos + n + (i - n) = pos + i := by omega
      obtain ⟨r, hr, within, k, hfrom, hk, hwithin, hbyte⟩ :=
        h'.written (i - n) (by omega) phys (by rw [hsum]; exact hmaps)
      refine ⟨r, List.mem_append_right _ hr, within, k, hfrom, hk, hsum ▸ hwithin, ?_⟩
      rw [List.getElem?_append_right (by rw [h.length]; omega), h.length]
      exact hbyte
  zeros := by
    intro i hi hnone
    by_cases hlt : i < n
    · rw [List.getElem?_append_left (by rw [h.length]; exact hlt)]
      exact h.zeros i hlt hnone
    · have hsum : pos + n + (i - n) = pos + i := by omega
      rw [List.getElem?_append_right (by rw [h.length]; omega), h.length]
      exact h'.zeros (i - n) (by omega) (by rw [hsum]; exact hnone)

theorem Copied.of_zeros
    (h : ∀ i < chunk, ∀ phys, ¬MapsTo extents ((pos + i) / src.volume.sb.blocksize) phys false) :
    Copied src file extents disk pos chunk (List.replicate chunk 0) [] where
  length := List.length_replicate
  origin := by simp
  written := fun i hi phys hmaps => absurd hmaps (h i hi phys)
  zeros := fun i hi _ => by simp [hi]

theorem readChunk_spec (hsorted : Sorted extents) (hpos : 0 < chunk)
    (hchunk : pos % src.volume.sb.blocksize + chunk ≤ src.volume.sb.blocksize)
    (h : src.readChunk ino file extents disk pos chunk = .ok (bytes, reads)) :
    Copied src file extents disk pos chunk bytes reads := by
  have hsame : ∀ i < chunk, (pos + i) / src.volume.sb.blocksize = pos / src.volume.sb.blocksize ∧
      (pos + i) % src.volume.sb.blocksize = pos % src.volume.sb.blocksize + i := by
    intro i hi
    have hdiv := Nat.div_add_mod pos src.volume.sb.blocksize
    have hsum : pos + i = (pos % src.volume.sb.blocksize + i) +
        src.volume.sb.blocksize * (pos / src.volume.sb.blocksize) := by
      omega
    rw [hsum, Nat.add_mul_div_left _ _ (by omega), Nat.add_mul_mod_self_left,
      Nat.div_eq_of_lt (by omega), Nat.mod_eq_of_lt (by omega)]
    exact ⟨by omega, rfl⟩
  unfold readChunk at h
  dsimp only at h
  split at h
  next hlook =>
    cases h
    refine Copied.of_zeros fun i hi phys hmaps => ?_
    rw [(hsame i hi).1] at hmaps
    exact (lookup_eq_none_iff hsorted).mp hlook phys false hmaps
  next e hlook =>
    obtain ⟨he, hc⟩ := (lookup_eq_some_iff hsorted).mp hlook
    have hmapped : MapsTo extents (pos / src.volume.sb.blocksize)
        (e.startblock + (pos / src.volume.sb.blocksize - e.startoff)) e.unwritten :=
      ⟨e, he, hc, rfl, rfl⟩
    split at h
    next hu =>
      cases h
      refine Copied.of_zeros fun i hi phys hmaps => ?_
      rw [(hsame i hi).1] at hmaps
      have hone := ((apart_of_sorted hsorted).mapsTo_unique hmaps hmapped).2
      rw [hu] at hone
      exact Bool.false_ne_true hone
    next hu =>
      obtain ⟨bytes', hread, h⟩ := bind_eq_ok.mp h
      cases h
      obtain ⟨hbytes, hfit⟩ := deviceRead_ok hread
      have hwritten : e.unwritten = false := by simpa using hu
      rw [hwritten] at hmapped
      have hfrom : FromBlock src file disk (src.physicalAt file
          (e.startblock + (pos / src.volume.sb.blocksize - e.startoff))
          (pos % src.volume.sb.blocksize), chunk)
          (e.startblock + (pos / src.volume.sb.blocksize - e.startoff))
          (pos % src.volume.sb.blocksize) := ⟨rfl, hchunk, hfit⟩
      refine ⟨by rw [hbytes]; simp, fun r hr => ?_, fun i hi phys hmaps => ?_, fun i hi hnone => ?_⟩
      · obtain rfl := List.mem_singleton.mp hr
        exact ⟨0, hpos, _, _, hmapped, hfrom⟩
      · rw [(hsame i hi).1] at hmaps
        obtain ⟨rfl, -⟩ := (apart_of_sorted hsorted).mapsTo_unique hmaps hmapped
        refine ⟨_, List.mem_singleton_self _, _, i, hfrom, hi, ((hsame i hi).2).symm, ?_⟩
        rw [hbytes]
        simp [hi]
      · rw [(hsame i hi).1] at hnone
        exact absurd hmapped (hnone _)

theorem readChunks_spec (hsorted : Sorted extents) {offset want fuel done : ℕ}
    (hfuel : want - done ≤ fuel)
    (h : src.readChunks ino file extents disk offset want fuel done = .ok (bytes, reads)) :
    Copied src file extents disk (offset + done) (want - done) bytes reads := by
  have hbs := src.volume.accepted.geometry.blocksize_ge
  induction fuel generalizing done bytes reads with
  | zero =>
    cases h
    rw [show want - done = 0 by omega]
    exact Copied.of_zeros (by simp)
  | succ fuel ih =>
    rw [readChunks] at h
    split at h
    next hlt =>
      have hmod := Nat.mod_lt (offset + done) (show 0 < src.volume.sb.blocksize by omega)
      generalize hk : min (src.volume.sb.blocksize - (offset + done) % src.volume.sb.blocksize)
        (want - done) = chunk at h
      obtain ⟨⟨first, firstReads⟩, hfirst, h⟩ := bind_eq_ok.mp h
      obtain ⟨⟨rest, restReads⟩, hrest, h⟩ := bind_eq_ok.mp h
      cases h
      rw [hk] at hfirst hrest
      have hone := readChunk_spec hsorted (by omega) (by omega) hfirst
      have hothers := ih (by omega) hrest
      rw [← Nat.add_assoc] at hothers
      rw [show want - done = chunk + (want - (done + chunk)) by omega]
      exact hone.append hothers
    next hge =>
      cases h
      rw [show want - done = 0 by omega]
      exact Copied.of_zeros (by simp)

/-! ### A file on the data device -/

theorem readChunk_data (hreal : file.inode.realtime = false)
    (h : src.readChunk ino file extents disk pos chunk = .ok (bytes, reads)) :
    src.volume.readChunk disk.byte extents pos chunk = bytes := by
  unfold readChunk at h
  unfold Volume.readChunk
  dsimp only at h
  cases hlook : lookup extents (pos / src.volume.sb.blocksize) with
  | none =>
    rw [hlook] at h
    cases h
    rfl
  | some e =>
    rw [hlook] at h
    dsimp only at h
    split at h
    · next hu =>
      cases h
      exact if_pos hu
    · next hu =>
      obtain ⟨bytes', hread, h⟩ := bind_eq_ok.mp h
      cases h
      rw [physicalAt, hreal, if_neg Bool.false_ne_true] at hread
      exact (if_neg hu).trans (deviceRead_ok hread).1.symm

theorem readChunks_data (hreal : file.inode.realtime = false) {offset want fuel done : ℕ}
    (h : src.readChunks ino file extents disk offset want fuel done = .ok (bytes, reads)) :
    src.volume.readChunks disk.byte extents offset want fuel done = bytes := by
  induction fuel generalizing done bytes reads with
  | zero =>
    cases h
    rfl
  | succ fuel ih =>
    rw [readChunks] at h
    rw [Volume.readChunks]
    split at h
    · next hlt =>
      obtain ⟨⟨first, firstReads⟩, hfirst, h⟩ := bind_eq_ok.mp h
      obtain ⟨⟨rest, restReads⟩, hrest, h⟩ := bind_eq_ok.mp h
      cases h
      rw [if_pos hlt]
      exact congrArg₂ _ (readChunk_data hreal hfirst) (ih hrest)
    · next hge =>
      cases h
      exact if_neg hge

/-- The reader of `File.Read` is this one on a regular file whose data is in blocks of the data
device, where every read of the device succeeds. -/
theorem volume_readAt (hregular : file.inode.regular = true) (hreal : file.inode.realtime = false)
    (hblocks : file.inode.format ≠ .local_) {offset len : ℕ}
    (h : src.readAt ino file offset len = .ok (bytes, reads)) :
    src.volume.readAt src.data.byte ino file.inode offset len = .ok bytes := by
  obtain ⟨_, -, h⟩ := bind_eq_ok.mp h
  refine bind_eq_ok.mpr ⟨(), ensure_eq_ok.mpr hregular, ?_⟩
  split at h
  · next hend =>
    cases h
    exact if_pos hend
  · next hend =>
    rw [fileExtents, hreal, if_neg Bool.false_ne_true] at h
    obtain ⟨⟨extents, disk⟩, hextents, h⟩ := bind_eq_ok.mp h
    obtain ⟨_, hdata, hpair⟩ := bind_eq_ok.mp hextents
    cases hpair
    rw [if_neg hend]
    exact bind_eq_ok.mpr ⟨extents, hdata, congrArg Except.ok (readChunks_data hreal h)⟩

end

/-! ## Addresses -/

section

variable {src : Sources} {ino : ℕ} {file : OpenFile} {extents : List Extent} {disk : Disk}

theorem fileExtents_ok (h : src.fileExtents ino file = .ok (extents, disk)) :
    (file.inode.realtime = true ∧ src.rblocks * src.volume.sb.blocksize < 2 ^ 64 ∧
      ∀ e ∈ extents, e.startblock + e.blockcount ≤ src.rblocks) ∨
    (file.inode.realtime = false ∧
      ∀ e ∈ extents, src.volume.sb.extentInBounds e.startblock e.blockcount = true) := by
  unfold fileExtents at h
  split at h
  next hreal =>
    obtain ⟨realtime, -, h⟩ := bind_eq_ok.mp h
    obtain ⟨extents', -, h⟩ := bind_eq_ok.mp h
    obtain ⟨_, hcheck, h⟩ := bind_eq_ok.mp h
    obtain ⟨rfl, -⟩ := Prod.mk.inj (Except.ok.inj h)
    refine .inl ⟨hreal, realtime.property, fun e he => ?_⟩
    unfold checkRealtimeExtents at hcheck
    split at hcheck
    next hnone =>
      obtain ⟨i, hi⟩ := List.mem_iff_getElem?.mp he
      have hmem : (e, i) ∈ extents'.zipIdx := List.mk_mem_zipIdx_iff_getElem?.mpr hi
      have hgood := List.find?_eq_none.mp hnone (e, i) hmem
      simp only [Bool.or_eq_true, decide_eq_true_eq, not_or, not_lt] at hgood
      exact hgood.2
    next => cases hcheck
  next hreal =>
    obtain ⟨extents', hextents, h⟩ := bind_eq_ok.mp h
    obtain ⟨rfl, -⟩ := Prod.mk.inj (Except.ok.inj h)
    exact .inr ⟨by simpa using hreal, (Volume.dataExtents_spec hextents).2.2⟩

theorem format_ne_local (h : src.fileExtents ino file = .ok (extents, disk)) :
    file.inode.format ≠ .local_ := by
  intro hlocal
  have hfork : ∀ l, src.volume.forkExtents ino file.inode ≠ .ok l := by
    intro l hl
    unfold Volume.forkExtents at hl
    rw [hlocal] at hl
    cases hl
  unfold fileExtents at h
  split at h
  · obtain ⟨_, -, h⟩ := bind_eq_ok.mp h
    obtain ⟨l, hl, -⟩ := bind_eq_ok.mp h
    exact hfork l hl
  · obtain ⟨l, hl, -⟩ := bind_eq_ok.mp h
    exact hfork l (Volume.dataExtents_spec hl).1

variable {phys block : ℕ}

theorem fsblockOffset_mapped {u : Bool} (hreal : file.inode.realtime = false)
    (hbounds : ∀ e ∈ extents, src.volume.sb.extentInBounds e.startblock e.blockcount = true)
    (h : MapsTo extents block phys u) :
    src.volume.sb.fsblockOffset phys = saturate64 (src.blockStart file phys) ∧
      src.volume.sb.blocksize ≤ src.blockStart file phys := by
  obtain ⟨e, he, hholds⟩ := holds_of_mapsTo h
  have hstart : src.blockStart file phys = FsXfs.blockStart src.volume.sb phys := by
    rw [blockStart, hreal, if_neg Bool.false_ne_true]
  rw [hstart]
  exact fsblockOffset_eq_saturate src.volume.accepted (hbounds e he) hholds

theorem blockStart_dvd (phys : ℕ) : src.volume.sb.blocksize ∣ src.blockStart file phys := by
  unfold blockStart
  split
  · exact Nat.dvd_mul_left _ _
  · exact Nat.dvd_mul_left _ _

section

variable (hfile : src.fileExtents ino file = .ok (extents, disk))

include hfile

theorem physicalAt_eq {within : ℕ} (h : MapsTo extents block phys false)
    (hreach : src.blockStart file phys < 2 ^ 64) (hwithin : within < src.volume.sb.blocksize) :
    src.physicalAt file phys within = src.blockStart file phys + within := by
  have hend := block_end_le_of_dvd src.volume.accepted (blockStart_dvd phys) hreach
  rcases fileExtents_ok hfile with ⟨hreal, -, -⟩ | ⟨hreal, hbounds⟩
  · have hstart : src.blockStart file phys = phys * src.volume.sb.blocksize := if_pos hreal
    have hmul : wrap64 (phys * src.volume.sb.blocksize) = phys * src.volume.sb.blocksize :=
      Nat.mod_eq_of_lt (hstart ▸ hreach)
    rw [physicalAt, if_pos hreal, hmul, ← hstart]
    exact Nat.mod_eq_of_lt (by omega)
  · rw [physicalAt, hreal, if_neg Bool.false_ne_true, (fsblockOffset_mapped hreal hbounds h).1,
      saturate64_of_lt hreach]
    exact Nat.mod_eq_of_lt (by omega)

theorem physicalAt_out_of_reach {within : ℕ} (h : MapsTo extents block phys false)
    (hreach : 2 ^ 64 ≤ src.blockStart file phys) (hwithin : within < src.volume.sb.blocksize) :
    file.inode.realtime = false ∧ src.physicalAt file phys within =
      if within = 0 then 2 ^ 64 - 1 else within - 1 := by
  rcases fileExtents_ok hfile with ⟨hreal, hfits, hblocks⟩ | ⟨hreal, hbounds⟩
  · obtain ⟨e, he, hge, hlt⟩ := holds_of_mapsTo h
    have hin := hblocks e he
    have hstart : src.blockStart file phys = phys * src.volume.sb.blocksize := if_pos hreal
    have hle : phys * src.volume.sb.blocksize ≤ src.rblocks * src.volume.sb.blocksize :=
      Nat.mul_le_mul_right _ (by omega)
    omega
  · refine ⟨hreal, ?_⟩
    have hle := src.volume.accepted.geometry.blocksize_le
    rw [physicalAt, hreal, if_neg Bool.false_ne_true, (fsblockOffset_mapped hreal hbounds h).1,
      saturate64_of_ge hreach]
    unfold wrap64
    split
    next hzero =>
      rw [hzero]
      exact Nat.mod_eq_of_lt (by decide)
    next hpos =>
      rw [show 2 ^ 64 - 1 + within = within - 1 + 2 ^ 64 by omega, Nat.add_mod_right]
      exact Nat.mod_eq_of_lt (by omega)

/-! ## The read -/

theorem right_of_inReach {offset want : ℕ} {bytes : List UInt8} {reads : List (ℕ × ℕ)}
    (h : Copied src file extents disk offset want bytes reads)
    (hreach : src.InReach file extents offset want) :
    src.Right file extents disk offset want bytes reads where
  length := h.length
  written := by
    intro i hi phys hmaps
    obtain ⟨r, -, within, k, hfrom, hk, hwithin, hbyte⟩ := h.written i hi phys hmaps
    have hfits := hfrom.fits
    rw [hbyte, hfrom.eq, physicalAt_eq hfile hmaps (hreach i hi phys hmaps) (by omega), ← hwithin,
      Nat.add_assoc]
  zeros := h.zeros
  inside := by
    intro r hr k hk
    obtain ⟨i, hi, phys, within, hmaps, hfrom⟩ := h.origin r hr
    have hfits := hfrom.fits
    refine ⟨_, phys, hmaps, ?_⟩
    rw [hfrom.eq, physicalAt_eq hfile hmaps (hreach i hi phys hmaps) (by omega)]
    omega

theorem inReach_of_right {offset want : ℕ} {bytes : List UInt8} {reads : List (ℕ × ℕ)}
    (h : Copied src file extents disk offset want bytes reads)
    (hright : src.Right file extents disk offset want bytes reads) :
    src.InReach file extents offset want := by
  intro i hi phys hmaps
  by_contra hfar
  have hfar : 2 ^ 64 ≤ src.blockStart file phys := by omega
  obtain ⟨r, hr, within, k, hfrom, hk, -, -⟩ := h.written i hi phys hmaps
  have hfits := hfrom.fits
  have hreached := hfrom.reached
  have hsize := disk.size_lt
  obtain ⟨hreal, haddress⟩ := physicalAt_out_of_reach hfile hmaps hfar (by omega : within < _)
  rw [← hfrom.eq] at haddress
  split at haddress
  next => omega
  next hpos =>
    obtain ⟨block, other, hother, hge, hlt⟩ := hright.inside r hr 0 (by omega)
    rcases fileExtents_ok hfile with ⟨hreal', -, -⟩ | ⟨-, hbounds⟩
    · rw [hreal] at hreal'
      exact Bool.false_ne_true hreal'
    · have hfirst := (fsblockOffset_mapped hreal hbounds hother).2
      omega

end

/-- A read returns the file's bytes, having read nothing but its blocks, exactly when every written
block of the range has an address of 64 bits. -/
theorem readAt_right_iff {offset len : ℕ} {bytes : List UInt8} {reads : List (ℕ × ℕ)}
    (hfile : src.fileExtents ino file = .ok (extents, disk)) (hsorted : Sorted extents)
    (h : src.readAt ino file offset len = .ok (bytes, reads)) :
    src.Right file extents disk offset (min len (file.inode.size - offset)) bytes reads ↔
      src.InReach file extents offset (min len (file.inode.size - offset)) := by
  obtain ⟨_, -, h⟩ := bind_eq_ok.mp h
  have hcopied : Copied src file extents disk offset (min len (file.inode.size - offset)) bytes
      reads := by
    split at h
    next hpast =>
      cases h
      rw [show min len (file.inode.size - offset) = 0 by omega]
      exact Copied.of_zeros (by simp)
    next hbefore =>
      split at h
      next hlocal => exact absurd hlocal (format_ne_local hfile)
      next =>
        obtain ⟨⟨extents', disk'⟩, hfile', h⟩ := bind_eq_ok.mp h
        obtain ⟨rfl, rfl⟩ := Prod.mk.inj (Except.ok.inj (hfile.symm.trans hfile'))
        exact readChunks_spec hsorted (by omega) h
  exact ⟨inReach_of_right hfile hcopied, right_of_inReach hfile hcopied⟩

end

/-! ## Near and far -/

def countingDisk : Disk where
  size := 2 ^ 40
  size_lt := by decide
  byte := UInt8.ofNat
  fault := fun _ _ => none

def sourcesOf (volume : Volume) : Sources where
  volume := volume
  data := countingDisk
  rblocks := 0
  realtime := none

def openFile (inode : Inode) : OpenFile :=
  ⟨inode, false, []⟩

def nearFile : Inode :=
  Volume.listedFile 1500 [⟨0, 8, 1, false⟩] (by decide)

def nearVolume : Volume :=
  Volume.oneFile twoGroups twoGroups_accepted Volume.zeroDevice nearFile Volume.noNode

theorem readAt_right_near :
    (sourcesOf nearVolume).readAt 100 (openFile nearFile) 1023 2 = .ok ([255, 0], [(9215, 1)]) ∧
      (sourcesOf nearVolume).Right (openFile nearFile) [⟨0, 8, 1, false⟩] countingDisk 1023 2 [255, 0]
        [(9215, 1)] := by
  have hread : (sourcesOf nearVolume).readAt 100 (openFile nearFile) 1023 2 =
      .ok ([255, 0], [(9215, 1)]) := by decide +kernel
  have hextents : (sourcesOf nearVolume).fileExtents 100 (openFile nearFile) =
      .ok ([⟨0, 8, 1, false⟩], countingDisk) := by
    refine bind_eq_ok.mpr ⟨[⟨0, 8, 1, false⟩], ?_, rfl⟩
    decide +kernel
  have hwant : min 2 ((openFile nearFile).inode.size - 1023) = 2 := by decide +kernel
  have hiff := readAt_right_iff hextents (by decide) hread
  rw [hwant] at hiff
  refine ⟨hread, hiff.mpr ?_⟩
  rintro i hi phys ⟨e, he, hc, rfl, -⟩
  obtain rfl := List.mem_singleton.mp he
  obtain ⟨-, hlt⟩ := Extent.contains_iff.mp hc
  rw [Nat.lt_one_iff.mp hlt]
  decide +kernel

def farVolume : Volume :=
  Volume.oneFile hugeGroups hugeGroups_accepted Volume.zeroDevice Volume.farFile
    Volume.noNode

/-- A block at 2 ^ 65 bytes: what is read is byte 512 of the volume, in its first group's header. -/
theorem readAt_wrapped :
    hugeGroups.Accepted ∧
      farVolume.dataExtents 100 Volume.farFile = .ok [⟨0, 2 ^ 49 + 8, 1, false⟩] ∧
      (sourcesOf farVolume).readAt 100 (openFile Volume.farFile) 513 1 = .ok ([0], [(512, 1)]) ∧
      ¬(sourcesOf farVolume).Right (openFile Volume.farFile) [⟨0, 2 ^ 49 + 8, 1, false⟩] countingDisk
        513 1 [0] [(512, 1)] := by
  refine ⟨hugeGroups_accepted, by decide +kernel, by decide +kernel, fun hright => ?_⟩
  obtain ⟨block, phys, ⟨e, he, hc, rfl, -⟩, hge, -⟩ :=
    hright.inside (512, 1) (List.mem_singleton_self _) 0 (by decide)
  obtain rfl := List.mem_singleton.mp he
  obtain ⟨-, hlt⟩ := Extent.contains_iff.mp hc
  change block < 0 + 1 at hlt
  obtain rfl : block = 0 := by omega
  exact absurd hge (by decide +kernel)

end Sources

end FsXfs.File
