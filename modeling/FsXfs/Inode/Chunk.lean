import FsXfs.Inode.Core
import FsXfs.Lib.Fields
import FsXfs.Log.Parse

/-!
# Chunks of inodes

`create.rs` takes the first free inode of the parent's group and, when the group has none, makes a
chunk of 64. A record says so in one item (`icreate`), from which recovery writes the inodes
(`apply_icreate`); the mount puts them in its overlay itself (`freshly_initialised_inode`,
`logged_inode`). The inode created is one of the chunk's, and its core and forks are logged besides.
-/

namespace FsXfs

open Bytes Log Quota

set_option autoImplicit false

abbrev inodesPerChunk : ℕ := 64
abbrev newChunkGeneration : ℕ := 1

/-! ## Choosing an inode -/

structure InodeChunk where
  startino : ℕ
  holemask : ℕ
  count : ℕ
  freecount : ℕ
  free : ℕ
  deriving DecidableEq, Repr

namespace InodeChunk

def isFree (chunk : InodeChunk) (n : ℕ) : Bool :=
  chunk.free.testBit n

-- four inodes to a bit of the hole mask
def present (chunk : InodeChunk) (n : ℕ) : Bool :=
  !chunk.holemask.testBit (n / 4)

def firstFree (chunk : InodeChunk) : Option ℕ :=
  (List.range inodesPerChunk).find? fun n => chunk.present n && chunk.isFree n

end InodeChunk

def chooseFreeInode (chunks : List InodeChunk) : Option (ℕ × ℕ) :=
  chunks.zipIdx.findSome? fun (chunk, i) => chunk.firstFree.map fun n => (i, n)

structure NewChunk where
  agno : ℕ
  agblock : ℕ
  deriving DecidableEq, Repr

-- the group's inode number is a `u32`
def NewChunk.startino (sb : Superblock) (chunk : NewChunk) : ℕ :=
  chunk.agblock * sb.inopblock % 2 ^ 32

def NewChunk.icreate (sb : Superblock) (chunk : NewChunk) : List UInt8 :=
  icreateBuild chunk.agno chunk.agblock inodesPerChunk sb.inodesize
    (inodesPerChunk / sb.inopblock) newChunkGeneration

def NewChunk.record (sb : Superblock) (chunk : NewChunk) : InodeChunk where
  startino := chunk.startino sb
  holemask := 0
  count := inodesPerChunk
  freecount := inodesPerChunk
  free := 2 ^ 64 - 1

structure Chosen where
  chunks : List InodeChunk
  index : ℕ
  slot : ℕ
  newChunk : Option NewChunk
  deriving DecidableEq, Repr

-- `take` is what `take_aligned` of the group's allocator does
def chooseSlot (sb : Superblock) (agno : ℕ) (take : ℕ → Except Error ℕ)
    (chunks : List InodeChunk) : Except Error Chosen :=
  match chooseFreeInode chunks with
  | some (index, slot) => .ok ⟨chunks, index, slot, none⟩
  | none => do
    ensure (sb.inopblock ≠ 0 ∧ inodesPerChunk % sb.inopblock = 0)
      (.unsupportedFeature s!"a chunk of {inodesPerChunk} inodes does not divide into blocks of {sb.inopblock}; a sparse chunk is not implemented")
    let agblock ← take (inodesPerChunk / sb.inopblock)
    let chunk : NewChunk := ⟨agno, agblock⟩
    ensure (¬chunks.any fun c => decide (c.startino = chunk.startino sb))
      (.unsupportedFeature s!"allocation group {agno} already has an inode chunk at {chunk.startino sb}; the free space and the inode tree disagree")
    let at_ := (chunks.findIdx? fun c => decide (chunk.startino sb < c.startino)).getD chunks.length
    pure ⟨chunks.insertIdx at_ (chunk.record sb), at_, 0, some chunk⟩

def Chosen.agino (chosen : Chosen) : ℕ :=
  ((chosen.chunks[chosen.index]?.map InodeChunk.startino).getD 0 + chosen.slot) % 2 ^ 32

def Chosen.ino (sb : Superblock) (agno : ℕ) (chosen : Chosen) : ℕ :=
  sb.joinIno agno chosen.agino

/-! ## The inodes of a chunk -/

def freshlyInitialisedInode (sb : Superblock) (ino : ℕ) : List UInt8 :=
  let raw := List.replicate sb.inodesize 0
  let raw := patch raw 0 (beBytes 2 0x494e)
  let raw := patch raw diVersion [3]
  let raw := patch raw diGen (beBytes 4 newChunkGeneration)
  let raw := patch raw diIno (beBytes 8 ino)
  patch raw diUuid sb.metaUuid

-- `Vec::resize`, where it only ever lengthens
def lengthened (image : List UInt8) (n : ℕ) : List UInt8 :=
  if image.length < n then image.takeD n 0 else image

section

variable (crc32c : List UInt8 → ℕ) (sb : Superblock)

def loggedInodeImage (core fork : List UInt8) : List UInt8 :=
  let at_ := if core[diVersion]? = some 3 then xfsDinodeV3Size else xfsDinodeV2Size
  let image := if fork = [] then core else patch (lengthened core (at_ + fork.length)) at_ fork
  let image := lengthened image sb.inodesize
  if image[diVersion]? = some 3 then
    patch image diCrc (leBytes 4 (crc32cWithZeroedCrc crc32c (image.take sb.inodesize) diCrc))
  else image

def NewChunk.ino (chunk : NewChunk) (slot : ℕ) : ℕ :=
  sb.joinIno chunk.agno ((chunk.startino sb + slot) % 2 ^ 32)

def NewChunk.overlayImage (chunk : NewChunk) (slot : ℕ) : List UInt8 :=
  loggedInodeImage crc32c sb (freshlyInitialisedInode sb (chunk.ino sb slot)) []

end

/-! ## The inode created -/

abbrev ilogCore : ℕ := 1
abbrev ilogDdata : ℕ := 2
abbrev ilogDext : ℕ := 4
abbrev ilogAdata : ℕ := 64

def shortformForkoff (litino dataRequired forkLen : ℕ) : Option ℕ :=
  let dataRequired := divCeil (max dataRequired 8) 8 * 8
  let minData := max dataRequired 56
  if litino < forkLen ∨ litino < 36 then none
  else
    let offset := (litino - forkLen) / 8 * 8
    let most := (litino - 36) / 8 * 8
    let forkoff := max (min offset most) minData
    if forkoff + forkLen ≤ litino then some forkoff else none

def emptyShortFormDir (parent : ℕ) : List UInt8 :=
  if 2 ^ 32 ≤ parent then 0 :: 1 :: beBytes 8 parent else 0 :: 0 :: beBytes 4 parent

def xfsSymlinkMaxTarget : ℕ := 1023

def checkTarget (target : List UInt8) : Except Error Unit :=
  let nul := if 0 ∈ target then " and holds a NUL" else ""
  ensure (target ≠ [] ∧ target.length ≤ xfsSymlinkMaxTarget ∧ 0 ∉ target)
    (.unsupportedFeature s!"a symlink's target is 1 to {xfsSymlinkMaxTarget} bytes with no NUL; this one is {target.length} bytes{nul}")

def xfsSymlinkHdrSize : ℕ := 56

structure SymlinkData where
  fork : List UInt8
  blocks : ℕ
  deriving DecidableEq, Repr

-- `take` allocates the target's blocks in the group and names the first of them
def symlinkData (sb : Superblock) (target : List UInt8) (attrFork : Option ℕ)
    (take : ℕ → Except Error ℕ) : Except Error SymlinkData :=
  let literal := sb.inodesize - xfsDinodeV3Size
  let isInline : Bool :=
    match attrFork with
    | none => decide (target.length ≤ literal)
    | some len => (shortformForkoff literal target.length len).isSome
  if isInline then .ok ⟨target, 0⟩
  else do
    let blocks := divCeil (xfsSymlinkHdrSize + target.length) sb.blocksize
    let fsblock ← take blocks
    let fork ← Extent.toBytes ⟨0, fsblock, blocks, false⟩
    pure ⟨fork, blocks⟩

structure CreateRequest where
  parent : ℕ
  mode : ℕ
  kind : Kind
  target : List UInt8
  parentFork : Option (List UInt8)
  when_ : Timestamp

structure Created where
  core : List UInt8
  fork : List UInt8
  field : ℕ
  parentFork : Option (List UInt8)
  deriving DecidableEq, Repr

def requestedSymlink (sb : Superblock) (take : ℕ → Except Error ℕ) (request : CreateRequest) :
    Except Error SymlinkData :=
  if request.kind = .symlink then do
    checkTarget request.target
    symlinkData sb request.target (request.parentFork.map List.length) take
  else .ok ⟨[], 0⟩

def newFork (request : CreateRequest) (symlink : SymlinkData) : List UInt8 :=
  match request.kind with
  | .symlink => symlink.fork
  | .directory => emptyShortFormDir request.parent
  | .file => []

def newCore (raw : List UInt8) (mode : ℕ) (request : CreateRequest) (symlink : SymlinkData) :
    List UInt8 :=
  let size :=
    if request.kind = .symlink then request.target.length else (newFork request symlink).length
  let core := createdCore raw mode request.kind size request.when_
  if 0 < symlink.blocks then
    setNextents (setBe (setBe core diFormat 1 Format.extents.raw) diNblocks 8 symlink.blocks) 1
  else core

def withParentFork (ino : ℕ) (core : List UInt8) (dataRequired : ℕ) (afork : List UInt8) :
    Except Error (List UInt8) := do
  let forkoff ← orElse
    (shortformForkoff (core.length - xfsDinodeV3Size) dataRequired afork.length)
    (.unsupportedFeature s!"inode {ino}: no room for its parent pointer beside its data fork")
  let core := setBe (setBe core diForkoff 1 (forkoff / 8)) diAformat 1 Format.local_.raw
  pure (patch core (xfsDinodeV3Size + forkoff) afork)

def createInode (sb : Superblock) (ino : ℕ) (raw : List UInt8) (take : ℕ → Except Error ℕ)
    (request : CreateRequest) : Except Error Created := do
  let mode ← typedMode request.mode request.kind
  let symlink ← requestedSymlink sb take request
  let fork := newFork request symlink
  let core := newCore raw mode request symlink
  let field := if 0 < symlink.blocks then ilogDext else ilogDdata
  match request.parentFork with
  | none => pure ⟨core, fork, field, none⟩
  | some afork => do
    let dataRequired := if 0 < symlink.blocks then 16 else fork.length
    let core ← withParentFork ino core dataRequired afork
    pure ⟨core, fork, field, some afork⟩

namespace Created

def afork (made : Created) : List UInt8 :=
  made.parentFork.getD []

def ops (made : Created) (ino : ℕ) (buffer : InodeBuffer) (logged : List UInt8) :
    List (List UInt8) :=
  let dsize := made.fork.length
  let asize := made.afork.length
  if 0 < asize then
    let fields := ilogCore ||| (if 0 < dsize then made.field else 0) ||| ilogAdata
    [inodeLogFormatWithForks ino fields buffer dsize asize, logged] ++
      (if 0 < dsize then [forkOp made.fork] else []) ++ [forkOp made.afork]
  else if dsize = 0 then [inodeLogFormat ino ilogCore buffer, logged]
  else [inodeLogFormatWithFork ino (ilogCore ||| made.field) buffer dsize, logged, forkOp made.fork]

end Created

/-! ## Where a chunk's inodes lie -/

/-- A chunk inside its group, on a volume whose inode numbers and addresses fit their types. -/
structure NewChunk.Fits (sb : Superblock) (chunk : NewChunk) : Prop where
  agno_lt : chunk.agno < sb.agcount
  agblock_le : chunk.agblock + inodesPerChunk / sb.inopblock ≤ sb.agblocks
  divides : inodesPerChunk % sb.inopblock = 0
  agino_lt : sb.agblocks * sb.inopblock ≤ 2 ^ 32
  ino_lt : sb.agcount * 2 ^ (sb.inopblog + sb.agblklog) ≤ 2 ^ 64
  address_lt : sb.agcount * sb.agblocks * sb.blocksize < 2 ^ 64

namespace NewChunk

section

variable {sb : Superblock} {chunk : NewChunk} {slot : ℕ}

section

variable (hsb : sb.Accepted) (h : chunk.Fits sb)

include hsb h

theorem agino_lt_group (hslot : slot < inodesPerChunk) :
    chunk.agblock * sb.inopblock + slot < sb.agblocks * sb.inopblock := by
  obtain ⟨-, -, hper, -⟩ := hsb.inodes
  have hblocks : inodesPerChunk / sb.inopblock * sb.inopblock = inodesPerChunk :=
    Nat.div_mul_cancel (Nat.dvd_of_mod_eq_zero h.divides)
  have hle := Nat.mul_le_mul_right sb.inopblock h.agblock_le
  rw [Nat.add_mul, hblocks] at hle
  omega

theorem ino_eq (hslot : slot < inodesPerChunk) :
    chunk.agblock + slot / sb.inopblock < sb.agblocks ∧ slot % sb.inopblock < sb.inopblock ∧
      chunk.ino sb slot = chunk.agno * 2 ^ (sb.inopblog + sb.agblklog) +
        ((chunk.agblock + slot / sb.inopblock) * sb.inopblock + slot % sb.inopblock) := by
  obtain ⟨-, -, hper, -⟩ := hsb.inodes
  have hlt := agino_lt_group hsb h hslot
  have hinop : 0 < sb.inopblock := hper ▸ Nat.two_pow_pos _
  have hdiv := Nat.div_add_mod slot sb.inopblock
  have hagino : chunk.agblock * sb.inopblock + slot =
      (chunk.agblock + slot / sb.inopblock) * sb.inopblock + slot % sb.inopblock := by
    rw [Nat.add_mul, Nat.mul_comm (slot / sb.inopblock)]
    omega
  have hblock : chunk.agblock + slot / sb.inopblock < sb.agblocks :=
    lt_of_mul_lt_mul_right (a := sb.inopblock) (by omega) (Nat.zero_le _)
  have hag : chunk.agno * 2 ^ (sb.inopblog + sb.agblklog) < 2 ^ 64 :=
    lt_of_lt_of_le (Nat.mul_lt_mul_of_pos_right h.agno_lt (by positivity)) h.ino_lt
  have hmod := Nat.mod_lt slot hinop
  have hsmall := lt_of_lt_of_le hlt h.agino_lt
  have hstart : chunk.startino sb = chunk.agblock * sb.inopblock := Nat.mod_eq_of_lt (by omega)
  rw [ino, hstart, Nat.mod_eq_of_lt hsmall, hagino,
    Superblock.joinIno_eq hag (Superblock.agino_lt_pow hsb hblock hmod)]
  exact ⟨hblock, hmod, rfl⟩

theorem fsblockOffset_chunk :
    sb.fsblockOffset (wrap64 (chunk.agno * 2 ^ sb.agblklog) ||| chunk.agblock) =
      (chunk.agno * sb.agblocks + chunk.agblock) * sb.blocksize := by
  have hgeo := hsb.geometry
  have hagcount := hsb.agcount_lt
  have hagno := h.agno_lt
  have hinner := agino_lt_group hsb h (show 0 < inodesPerChunk by decide)
  have hblock : chunk.agblock < sb.agblocks := by
    refine lt_of_mul_lt_mul_right (a := sb.inopblock) ?_ (Nat.zero_le _)
    simpa using hinner
  have hlt : chunk.agblock < 2 ^ sb.agblklog := lt_of_lt_of_le hblock hgeo.agblocks_le
  have hbits : 2 ^ sb.agblklog ≤ 2 ^ 32 := Nat.pow_le_pow_right (by decide) hgeo.agblklog_le
  have hag : chunk.agno * 2 ^ sb.agblklog < 2 ^ 64 := by
    calc chunk.agno * 2 ^ sb.agblklog < 2 ^ 32 * 2 ^ sb.agblklog :=
          Nat.mul_lt_mul_of_pos_right (by omega) (by positivity)
      _ ≤ 2 ^ 32 * 2 ^ 32 := Nat.mul_le_mul_left _ hbits
      _ = 2 ^ 64 := by norm_num
  have hpacked : wrap64 (chunk.agno * 2 ^ sb.agblklog) ||| chunk.agblock =
      chunk.agno * 2 ^ sb.agblklog + chunk.agblock := by
    rw [wrap64, Nat.mod_eq_of_lt hag, or_eq_add _ hlt]
  have hlinear : chunk.agno * sb.agblocks + chunk.agblock < sb.agcount * sb.agblocks := by
    have hle := Nat.mul_le_mul_right sb.agblocks (Nat.succ_le_of_lt hagno)
    rw [Nat.succ_mul] at hle
    omega
  have hbs : 0 < sb.blocksize := by have := hgeo.blocksize_ge; omega
  have haddress : (chunk.agno * sb.agblocks + chunk.agblock) * sb.blocksize < 2 ^ 64 :=
    lt_trans (Nat.mul_lt_mul_of_pos_right hlinear hbs) h.address_lt
  rw [hpacked, Superblock.fsblockOffset_split hbs, Superblock.splitFsblock_pack hsb hagno hblock]
  exact saturate64_of_lt haddress

theorem inodeOffset_chunk (hslot : slot < inodesPerChunk) :
    sb.inodeOffset (chunk.ino sb slot) =
      .ok (wrap64 (sb.fsblockOffset (wrap64 (chunk.agno * 2 ^ sb.agblklog) ||| chunk.agblock) +
        slot * sb.inodesize)) := by
  obtain ⟨-, -, -, hfill⟩ := hsb.inodes
  have hagno := h.agno_lt
  obtain ⟨hblock, hmod, heq⟩ := ino_eq hsb h hslot
  rw [Superblock.inodeOffset, heq, Superblock.splitIno_eq hsb hblock hmod hagno, fsblockOffset_chunk hsb h]
  dsimp only
  rw [if_neg (by omega)]
  have hslots := Nat.div_add_mod slot sb.inopblock
  congr 2
  calc chunk.agno * sb.agblocks * sb.blocksize + (chunk.agblock + slot / sb.inopblock) * sb.blocksize +
        slot % sb.inopblock * sb.inodesize
      = (chunk.agno * sb.agblocks + chunk.agblock) * sb.blocksize +
        (slot / sb.inopblock * sb.blocksize + slot % sb.inopblock * sb.inodesize) := by ring
    _ = (chunk.agno * sb.agblocks + chunk.agblock) * sb.blocksize +
        (sb.inopblock * (slot / sb.inopblock) + slot % sb.inopblock) * sb.inodesize := by
      rw [← hfill]
      ring
    _ = (chunk.agno * sb.agblocks + chunk.agblock) * sb.blocksize + slot * sb.inodesize := by
      rw [hslots]

end

end

end NewChunk

/-! ## The images of a chunk's inodes -/

/-- What `freshlyInitialisedInode` writes over zeros. -/
def freshFields (sb : Superblock) (ino : ℕ) : List (ℕ × List UInt8) :=
  [(0, beBytes 2 0x494e), (diVersion, [3]), (diGen, beBytes 4 newChunkGeneration),
    (diIno, beBytes 8 ino), (diUuid, sb.metaUuid)]

theorem freshFields_spans {sb : Superblock} (huuid : sb.metaUuid.length = 16) (ino : ℕ) :
    spans (freshFields sb ino) = [(0, 2), (diVersion, 1), (diGen, 4), (diIno, 8), (diUuid, 16)] := by
  simp [spans, freshFields, huuid]

section

variable {sb : Superblock} (hsb : sb.Accepted) (huuid : sb.metaUuid.length = 16)

include hsb huuid

theorem freshFields_within (ino : ℕ) :
    ∀ f ∈ freshFields sb ino, f.1 + f.2.length ≤ (List.replicate sb.inodesize (0 : UInt8)).length := by
  have hall : ∀ f ∈ freshFields sb ino, f.1 + f.2.length ≤ 256 := by
    simp [freshFields, huuid, diVersion, diGen, diIno, diUuid]
  rw [List.length_replicate]
  exact fun f hf => (hall f hf).trans hsb.inodes.1

theorem freshlyInitialisedInode_length (ino : ℕ) :
    (freshlyInitialisedInode sb ino).length = sb.inodesize :=
  (putAll_length (freshFields_within hsb huuid ino)).trans List.length_replicate

theorem icreateInode_eq (crc32c : List UInt8 → ℕ) (ino : ℕ) :
    icreateInode crc32c sb ino newChunkGeneration =
      stampInode crc32c sb (patch (freshlyInitialisedInode sb ino) diNextUnlinked
        (beBytes 4 0xffffffff)) := by
  have hwithin := freshFields_within hsb huuid ino
  set front := putAll (List.replicate sb.inodesize 0) ((freshFields sb ino).take 3)
  have hlen : front.length = _ := putAll_length fun f hf => hwithin f (List.mem_of_mem_take hf)
  have hino : diIno + (beBytes 8 ino).length ≤ front.length :=
    hlen ▸ hwithin (diIno, beBytes 8 ino) (by simp [freshFields])
  have hmeta : diUuid + sb.metaUuid.length ≤ (patch front diIno (beBytes 8 ino)).length := by
    rw [patch_length hino, hlen]
    exact hwithin (diUuid, sb.metaUuid) (by simp [freshFields])
  change stampInode crc32c sb (patch (patch (patch front diNextUnlinked _) diIno _) diUuid _) =
    stampInode crc32c sb (patch (patch (patch front diIno _) diUuid _) diNextUnlinked _)
  rw [patch_comm (by simp [diNextUnlinked, diIno]) hino,
    patch_comm (by simp [diNextUnlinked, diUuid]) hmeta]

theorem freshlyInitialisedInode_version (ino : ℕ) :
    (freshlyInitialisedInode sb ino)[diVersion]? = some 3 := by
  have hslice := @slice_putAll_of_mem _ _ (freshFields_within hsb huuid ino) diVersion [3]
    (freshFields_spans huuid ino ▸ by decide) (by simp [freshFields])
  have hbyte := congrArg (fun bytes => bytes[0]?) hslice
  simp only [getElem?_slice] at hbyte
  exact hbyte

theorem freshlyInitialisedInode_unlinked (ino : ℕ) :
    (freshlyInitialisedInode sb ino)[diNextUnlinked]? = some 0 := by
  have hslice := @slice_putAll_of_apart _ _ (freshFields_within hsb huuid ino) diNextUnlinked 1
    (freshFields_spans huuid ino ▸ by decide)
  have hbyte := congrArg (fun bytes => bytes[0]?) hslice
  simp only [getElem?_slice, List.getElem?_replicate] at hbyte
  exact hbyte.trans (if_pos (lt_of_lt_of_le (by decide) hsb.inodes.1))

end

section

variable {crc32c : List UInt8 → ℕ} {sb : Superblock}

theorem stampInode_length (inode : List UInt8) :
    (stampInode crc32c sb inode).length = inode.length := by
  unfold stampInode stampAt
  split
  · split
    · rfl
    · rw [patch_length]
      rw [leBytes_length]
      omega
  · rfl

theorem getElem?_stampInode (inode : List UInt8) {k : ℕ} (hk : k < diCrc ∨ diCrc + 4 ≤ k) :
    (stampInode crc32c sb inode)[k]? = inode[k]? := by
  unfold stampInode stampAt
  split
  · split
    · rfl
    · rw [getElem?_patch_of_outside (by rw [leBytes_length]; omega) (by rwa [leBytes_length])]
  · rfl

theorem lengthened_of_le {image : List UInt8} {n : ℕ} (h : n ≤ image.length) :
    lengthened image n = image :=
  if_neg (Nat.not_lt.mpr h)

/-- An image of a version-3 inode as the overlay gets it: the fork behind the core, and the
checksum. -/
theorem getElem?_loggedInodeImage {core fork : List UInt8} (hsize : 256 ≤ sb.inodesize)
    (hlen : core.length = sb.inodesize) (hversion : core[diVersion]? = some 3)
    (hfork : xfsDinodeV3Size + fork.length ≤ sb.inodesize) {k : ℕ}
    (hk : k < diCrc ∨ diCrc + 4 ≤ k) :
    (loggedInodeImage crc32c sb core fork)[k]? =
      if xfsDinodeV3Size ≤ k ∧ k < xfsDinodeV3Size + fork.length then fork[k - xfsDinodeV3Size]?
      else core[k]? := by
  have himage : (if fork = [] then core
      else patch (lengthened core (xfsDinodeV3Size + fork.length)) xfsDinodeV3Size fork) =
      patch core xfsDinodeV3Size fork := by
    split
    · next hnil =>
      subst hnil
      simp [patch]
    · rw [lengthened_of_le (by omega)]
  have hfits : xfsDinodeV3Size + fork.length ≤ core.length := by omega
  have hpatch : (patch core xfsDinodeV3Size fork).length = sb.inodesize := by
    rw [patch_length hfits, hlen]
  have hsame : (patch core xfsDinodeV3Size fork)[diVersion]? = some 3 := by
    rw [getElem?_patch_of_outside hfits (.inl (by decide)), hversion]
  unfold loggedInodeImage
  dsimp only
  rw [if_pos hversion, himage, lengthened_of_le (le_of_eq hpatch.symm), if_pos hsame,
    getElem?_patch_of_outside (by rw [leBytes_length, hpatch]; simp only [diCrc]; omega)
      (by rwa [leBytes_length]), getElem?_patch hfits]

end

variable {sb : Superblock} {take : ℕ → Except Error ℕ} {made : Created}

theorem overlayImage_eq_icreate (hsb : sb.Accepted)
    (huuid : sb.metaUuid.length = 16) (crc32c : List UInt8 → ℕ) (chunk : NewChunk) (slot : ℕ)
    {k : ℕ} (hk : k < diNextUnlinked ∨ diCrc + 4 ≤ k) :
    (chunk.overlayImage crc32c sb slot)[k]? =
      (icreateInode crc32c sb (chunk.ino sb slot) newChunkGeneration)[k]? := by
  obtain ⟨hsize, -⟩ := hsb.inodes
  have hlen := freshlyInitialisedInode_length hsb huuid (chunk.ino sb slot)
  have hcrc : k < diCrc ∨ diCrc + 4 ≤ k := by
    simp only [diNextUnlinked, diCrc] at hk ⊢
    omega
  rw [NewChunk.overlayImage, getElem?_loggedInodeImage hsize hlen
    (freshlyInitialisedInode_version hsb huuid _) (by simp only [List.length_nil, xfsDinodeV3Size]; omega) hcrc,
    if_neg (by simp), icreateInode_eq hsb huuid, getElem?_stampInode _ hcrc,
    getElem?_patch_of_outside (by rw [beBytes_length, hlen]; simp only [diNextUnlinked]; omega)]
  rw [beBytes_length]
  simp only [diNextUnlinked, diCrc] at hk ⊢
  omega

theorem overlayImage_unlinked (hsb : sb.Accepted)
    (huuid : sb.metaUuid.length = 16) (crc32c : List UInt8 → ℕ) (chunk : NewChunk) (slot : ℕ) :
    (chunk.overlayImage crc32c sb slot)[diNextUnlinked]? = some 0 ∧
      (icreateInode crc32c sb (chunk.ino sb slot) newChunkGeneration)[diNextUnlinked]? =
        some 255 := by
  obtain ⟨hsize, -⟩ := hsb.inodes
  have hlen := freshlyInitialisedInode_length hsb huuid (chunk.ino sb slot)
  constructor
  · rw [NewChunk.overlayImage, getElem?_loggedInodeImage hsize hlen
      (freshlyInitialisedInode_version hsb huuid _)
      (by simp only [List.length_nil, xfsDinodeV3Size]; omega) (by decide), if_neg (by decide),
      freshlyInitialisedInode_unlinked hsb huuid]
  · rw [icreateInode_eq hsb huuid, getElem?_stampInode _ (by decide), getElem?_patch_of_inside
      (by rw [beBytes_length, hlen]; simp only [diNextUnlinked]; omega) (le_refl _)
      (by rw [beBytes_length]; decide)]
    rfl

/-! ## The images of the inode created -/

theorem shortformForkoff_spec {litino dataRequired forkLen forkoff : ℕ}
    (h : shortformForkoff litino dataRequired forkLen = some forkoff) :
    dataRequired ≤ forkoff ∧ 56 ≤ forkoff ∧ forkoff % 8 = 0 ∧ forkoff + forkLen ≤ litino := by
  unfold shortformForkoff at h
  dsimp only at h
  split at h
  · cases h
  · split at h
    · next hfits =>
      injection h with h
      rw [h] at hfits
      unfold divCeil at h
      refine ⟨by omega, by omega, by omega, hfits⟩
    · cases h

theorem symlinkData_spec (hsize : 256 ≤ sb.inodesize) {target : List UInt8}
    {attrFork : Option ℕ} {data : SymlinkData}
    (h : symlinkData sb target attrFork take = .ok data) :
    xfsDinodeV3Size + data.fork.length ≤ sb.inodesize ∧
      (0 < data.blocks → data.fork.length = 16) := by
  rcases ite_eq_iff.mp h with ⟨hin, h⟩ | ⟨-, h⟩
  · have hfits : target.length ≤ sb.inodesize - xfsDinodeV3Size := by
      cases attrFork with
      | none => exact of_decide_eq_true hin
      | some len =>
        obtain ⟨forkoff, hforkoff⟩ := Option.isSome_iff_exists.mp hin
        have hle := shortformForkoff_spec hforkoff
        omega
    rw [← Except.ok.inj h]
    simp only [xfsDinodeV3Size] at hfits ⊢
    exact ⟨by omega, fun hpos => absurd hpos (Nat.lt_irrefl 0)⟩
  · obtain ⟨fsblock, -, h⟩ := bind_eq_ok.mp h
    obtain ⟨fork, hfork, h⟩ := bind_eq_ok.mp h
    have hlen := Extent.toBytes_length hfork
    rw [← Except.ok.inj h]
    refine ⟨?_, fun _ => hlen⟩
    simp only [hlen, xfsDinodeV3Size]
    omega

/-- What `create` leaves of the slot it builds on, and where it puts the forks. -/
structure Created.Laid (sb : Superblock) (raw : List UInt8) (made : Created) : Prop where
  length_eq : made.core.length = sb.inodesize
  version_eq : made.core[diVersion]? = some 3
  field_eq : made.field = ilogDdata ∨ made.field = ilogDext
  forks : ∃ forkoff, (made.afork ≠ [] → forkoffOf made.core = forkoff) ∧
    made.fork.length ≤ forkoff ∧ xfsDinodeV3Size + forkoff + made.afork.length ≤ sb.inodesize ∧
    ∀ k, xfsDinodeV3Size ≤ k → made.core[k]? =
      if xfsDinodeV3Size + forkoff ≤ k ∧ k < xfsDinodeV3Size + forkoff + made.afork.length then
        made.afork[k - (xfsDinodeV3Size + forkoff)]?
      else raw[k]?

theorem emptyShortFormDir_length (parent : ℕ) : (emptyShortFormDir parent).length ≤ 10 := by
  unfold emptyShortFormDir
  split <;> simp [beBytes_length]

variable {request : CreateRequest} {raw : List UInt8}

theorem newFork_spec (hsize : 256 ≤ sb.inodesize) {symlink : SymlinkData}
    (h : requestedSymlink sb take request = .ok symlink) :
    xfsDinodeV3Size + (newFork request symlink).length ≤ sb.inodesize ∧
      (newFork request symlink).length ≤
        (if 0 < symlink.blocks then 16 else (newFork request symlink).length) := by
  unfold requestedSymlink at h
  split at h
  · next hkind =>
    simp only [bind_eq_ok] at h
    obtain ⟨-, -, h⟩ := h
    obtain ⟨hfits, hremote⟩ := symlinkData_spec hsize h
    have hfork : newFork request symlink = symlink.fork := by simp only [newFork, hkind]
    rw [hfork]
    refine ⟨hfits, ?_⟩
    split
    · next hpos => exact le_of_eq (hremote hpos)
    · exact le_refl _
  · next hkind =>
    have hnone := Except.ok.inj h
    subst hnone
    refine ⟨?_, le_refl _⟩
    have hdir := emptyShortFormDir_length request.parent
    unfold newFork
    cases hk : request.kind with
    | symlink => exact absurd hk hkind
    | directory => simp only [xfsDinodeV3Size]; omega
    | file => simp only [xfsDinodeV3Size, List.length_nil]; omega

theorem newCore_edit (hlong : xfsDinodeV3Size ≤ raw.length) (mode : ℕ) (request : CreateRequest)
    (symlink : SymlinkData) :
    CoreEdit raw (newCore raw mode request symlink) := by
  have hcore := createdCore_edit hlong mode request.kind
    (if request.kind = .symlink then request.target.length else (newFork request symlink).length)
    request.when_
  unfold newCore
  dsimp only
  split
  · exact ((hcore.setBe hlong _ (by decide)).setBe hlong _ (by decide)).setNextents hlong 1
  · exact hcore

theorem withParentFork_spec {ino dataRequired : ℕ} {core core' afork : List UInt8}
    (hlong : xfsDinodeV3Size ≤ core.length) (hshort : core.length ≤ 2048)
    (h : withParentFork ino core dataRequired afork = .ok core') :
    ∃ forkoff, core'.length = core.length ∧ core'[diVersion]? = core[diVersion]? ∧
      forkoffOf core' = forkoff ∧ dataRequired ≤ forkoff ∧
      xfsDinodeV3Size + forkoff + afork.length ≤ core.length ∧
      ∀ k, xfsDinodeV3Size ≤ k → core'[k]? =
        if xfsDinodeV3Size + forkoff ≤ k ∧ k < xfsDinodeV3Size + forkoff + afork.length then
          afork[k - (xfsDinodeV3Size + forkoff)]?
        else core[k]? := by
  unfold withParentFork at h
  simp only [bind_eq_ok, orElse_eq_ok] at h
  obtain ⟨forkoff, hforkoff, h⟩ := h
  have hcore' := Except.ok.inj h
  obtain ⟨hdata, -, height, hfits⟩ := shortformForkoff_spec hforkoff
  have hedit : CoreEdit core
      (setBe (setBe core diForkoff 1 (forkoff / 8)) diAformat 1 Format.local_.raw) :=
    ((CoreEdit.refl core).setBe hlong _ (by decide)).setBe hlong _ (by decide)
  set edited := setBe (setBe core diForkoff 1 (forkoff / 8)) diAformat 1 Format.local_.raw
    with hedited
  have hroom : xfsDinodeV3Size + forkoff + afork.length ≤ core.length := by omega
  have hroom' : xfsDinodeV3Size + forkoff + afork.length ≤ edited.length := by
    rw [hedit.length_eq]
    exact hroom
  have hlow : ∀ k, k < xfsDinodeV3Size → core'[k]? = edited[k]? := fun k hk => by
    rw [← hcore', getElem?_patch_of_outside hroom' (.inl (by omega))]
  refine ⟨forkoff, ?_, ?_, ?_, hdata, hroom, fun k hk => ?_⟩
  · rw [← hcore', patch_length hroom', hedit.length_eq]
  · rw [hlow _ (by decide), hedit.version_eq]
  · have hbyte : core'[diForkoff]? = some (UInt8.ofNat (forkoff / 8 % 256)) := by
      rw [hlow _ (by decide), hedited, setBe, getElem?_patch_of_outside (by
        rw [beBytes_length, setBe, patch_length (by rw [beBytes_length]; exact le_trans (by decide) hlong)]
        exact le_trans (by decide) hlong) (.inl (by decide)), setBe,
        getElem?_patch_of_inside (by rw [beBytes_length]; exact le_trans (by decide) hlong)
          (le_refl _) (by rw [beBytes_length]; decide)]
      rfl
    rw [forkoffOf, List.getD_eq_getElem?_getD, hbyte, Option.getD_some, UInt8.toNat_ofNat']
    simp only [xfsDinodeV3Size] at hroom
    omega
  · rw [← hcore', getElem?_patch hroom', hedit.tail_eq k hk]

theorem createInode_laid (hsb : sb.Accepted) {ino : ℕ} (hlen : raw.length = sb.inodesize)
    (hversion : raw[diVersion]? = some 3) (h : createInode sb ino raw take request = .ok made) :
    made.Laid sb raw := by
  obtain ⟨hsize, hsize', -⟩ := hsb.inodes
  have hlong : xfsDinodeV3Size ≤ raw.length := by
    rw [hlen]
    exact le_trans (by decide) hsize
  unfold createInode at h
  simp only [bind_eq_ok] at h
  obtain ⟨mode, -, symlink, hsymlink, h⟩ := h
  obtain ⟨hfork, hrequired⟩ := newFork_spec hsize hsymlink
  have hedit := newCore_edit hlong mode request symlink
  have hfield : ∀ p : Prop, ∀ [Decidable p], (if p then ilogDext else ilogDdata) = ilogDdata ∨
      (if p then ilogDext else ilogDdata) = ilogDext := by
    intro p _
    split
    · exact .inr rfl
    · exact .inl rfl
  cases hparent : request.parentFork with
  | none =>
    rw [hparent] at h
    have hmade := Except.ok.inj h
    subst hmade
    refine ⟨hedit.length_eq.trans hlen, hedit.version_eq.trans hversion, hfield _,
      sb.inodesize - xfsDinodeV3Size, fun hne => absurd rfl hne, by dsimp only; omega, ?_,
      fun k hk => ?_⟩
    · simp only [Created.afork, Option.getD_none, List.length_nil, xfsDinodeV3Size]
      omega
    · refine (hedit.tail_eq k hk).trans (if_neg ?_).symm
      rintro ⟨hlo, hhi⟩
      have hnone : k < xfsDinodeV3Size + (sb.inodesize - xfsDinodeV3Size) + 0 := hhi
      omega
  | some afork =>
    rw [hparent] at h
    simp only [bind_eq_ok] at h
    obtain ⟨core, hcore, h⟩ := h
    have hmade := Except.ok.inj h
    subst hmade
    obtain ⟨forkoff, hlen', hversion', hoff, hdata, hroom, htail⟩ :=
      withParentFork_spec (hedit.long hlong) (by rw [hedit.length_eq]; omega) hcore
    rw [hedit.length_eq, hlen] at hroom
    refine ⟨hlen'.trans (hedit.length_eq.trans hlen),
      hversion'.trans (hedit.version_eq.trans hversion), hfield _, forkoff, fun _ => hoff,
      le_trans hrequired hdata, hroom, fun k hk => ?_⟩
    rw [htail k hk, hedit.tail_eq k hk]
    rfl

theorem inodeFormat_field (size ino fields dsize asize : ℕ) (buffer : InodeBuffer)
    (rest : List (List UInt8)) (n : ℕ) :
    let item : RawItem := ⟨inodeFormat size ino fields dsize asize buffer :: rest, n⟩
    item.field 4 4 = fields % 256 ^ 4 ∧ item.field 8 2 = asize % 256 ^ 2 ∧
      item.field 10 2 = dsize % 256 ^ 2 :=
  ⟨leValue_leBytes 4 fields, leValue_leBytes 2 asize, leValue_leBytes 2 dsize⟩

/-- The item of an inode created: its core, and each fork it has. -/
structure Created.Item (made : Created) (logged : List UInt8) (item : RawItem) : Prop where
  regions_eq : ∃ format, item.regions = format :: logged ::
    ((if 0 < made.fork.length then [forkOp made.fork] else []) ++
      (if 0 < made.afork.length then [forkOp made.afork] else []))
  core : (item.field 4 4).testBit 0 = true
  data : 0 < made.fork.length → (item.field 4 4).testBit 1 = true ∨ (item.field 4 4).testBit 2 = true
  root : (item.field 4 4).testBit 3 = false
  attr : 0 < made.afork.length → (item.field 4 4).testBit 6 = true
  attrRoot : (item.field 4 4).testBit 8 = false
  dsize : item.field 10 2 = made.fork.length
  asize : item.field 8 2 = made.afork.length

def Created.fields (made : Created) : ℕ :=
  ilogCore ||| (if 0 < made.fork.length then made.field else 0) |||
    (if 0 < made.afork.length then ilogAdata else 0)

theorem Created.ops_eq (made : Created) (ino : ℕ) (buffer : InodeBuffer) (logged : List UInt8) :
    ∃ size, made.ops ino buffer logged =
      inodeFormat size ino made.fields made.fork.length made.afork.length buffer :: logged ::
        ((if 0 < made.fork.length then [forkOp made.fork] else []) ++
          (if 0 < made.afork.length then [forkOp made.afork] else [])) := by
  unfold ops fields
  by_cases ha : 0 < made.afork.length
  · simp only [ha, if_true]
    exact ⟨_, rfl⟩
  · have hzero : made.afork.length = 0 := by omega
    simp only [hzero, Nat.lt_irrefl, if_false, Nat.or_zero, List.append_nil]
    by_cases hd : 0 < made.fork.length
    · simp only [hd, if_true, if_neg (show ¬made.fork.length = 0 by omega)]
      exact ⟨_, rfl⟩
    · have hnone : made.fork.length = 0 := by omega
      simp only [hnone, Nat.lt_irrefl, if_true, if_false, Nat.or_zero]
      exact ⟨_, rfl⟩

theorem Created.item_ops (hfield : made.field = ilogDdata ∨ made.field = ilogDext)
    (hfork : made.fork.length < 2 ^ 16) (hafork : made.afork.length < 2 ^ 16) (ino : ℕ)
    (buffer : InodeBuffer) (logged : List UInt8) (n : ℕ) :
    made.Item logged ⟨made.ops ino buffer logged, n⟩ := by
  obtain ⟨size, hops⟩ := made.ops_eq ino buffer logged
  rw [hops]
  obtain ⟨hfields, hasize, hdsize⟩ := inodeFormat_field size ino made.fields made.fork.length
    made.afork.length buffer (logged ::
        ((if 0 < made.fork.length then [forkOp made.fork] else []) ++
          (if 0 < made.afork.length then [forkOp made.afork] else []))) n
  rw [Nat.mod_eq_of_lt (lt_of_lt_of_eq hafork (by norm_num))] at hasize
  rw [Nat.mod_eq_of_lt (lt_of_lt_of_eq hfork (by norm_num))] at hdsize
  have hbits : ((made.fields % 256 ^ 4).testBit 0 = true) ∧
      (0 < made.fork.length → (made.fields % 256 ^ 4).testBit 1 = true ∨
        (made.fields % 256 ^ 4).testBit 2 = true) ∧
      (made.fields % 256 ^ 4).testBit 3 = false ∧
      (0 < made.afork.length → (made.fields % 256 ^ 4).testBit 6 = true) ∧
      (made.fields % 256 ^ 4).testBit 8 = false := by
    unfold fields
    by_cases hd : 0 < made.fork.length <;> by_cases ha : 0 < made.afork.length <;>
      rcases hfield with hf | hf <;> simp only [hd, ha, hf, if_true, if_false] <;> decide
  rw [← hfields] at hbits
  obtain ⟨hcore, hdata, hroot, hattr, hattrRoot⟩ := hbits
  exact ⟨⟨_, rfl⟩, hcore, hdata, hroot, hattr, hattrRoot, hdsize, hasize⟩

section

variable {regions : List (List UInt8)} {inode core logged : List UInt8} {fields : ℕ}

theorem restoreCore_logged (hbit : fields.testBit 0 = true) (hregion : regions[1]? = some logged)
    (hlogged : logDinodeFromDisk core = .ok logged) (hversion : versionOf core = 3)
    (hlen : xfsDinodeV3Size ≤ inode.length) :
    ∃ out, restoreCore regions fields inode = .ok (out, 2) ∧ out.length = inode.length ∧
      ∀ k, k < diNextUnlinked ∨ diCrc + 4 ≤ k →
        out[k]? = if k < xfsDinodeV3Size then core[k]? else inode[k]? := by
  obtain ⟨size, hsize, hcorelen, hdisk⟩ := logDinodeToDisk_fromDisk hlogged
  have hthree : size = logDinodeSize := by
    rcases coreSize_cases hsize with ⟨hv, -⟩ | ⟨-, h⟩
    · omega
    · exact h
  subst hthree
  have hblank := blankedCore_length hsize hcorelen
  have hfits : 0 + (blankedCore core logDinodeSize).length ≤ inode.length := by
    rw [hblank]
    omega
  have htaken := patch_length hfits
  have hslice : (slice inode diNextUnlinked 4).length = 4 := slice_length (le_trans (by decide) hlen)
  have hroom : diNextUnlinked + (slice inode diNextUnlinked 4).length ≤
      (patch inode 0 (blankedCore core logDinodeSize)).length := by
    rw [hslice, htaken]
    exact le_trans (by decide) hlen
  refine ⟨patch (patch inode 0 (blankedCore core logDinodeSize)) diNextUnlinked
    (slice inode diNextUnlinked 4), ?_, ?_, fun k hk => ?_⟩
  · unfold restoreCore
    rw [if_pos hbit, hregion]
    dsimp only
    rw [hdisk]
    dsimp only
    rw [if_neg (by omega), if_pos (by rw [hblank]; decide)]
  · rw [patch_length hroom, htaken]
  · simp only [diNextUnlinked, diCrc] at hk
    rw [getElem?_patch_of_outside hroom (by rw [hslice]; simp only [diNextUnlinked]; omega),
      getElem?_patch hfits, hblank]
    by_cases hlow : k < xfsDinodeV3Size
    · rw [if_pos ⟨Nat.zero_le _, by omega⟩, if_pos hlow, Nat.sub_zero,
        getElem?_blankedCore hsize hcorelen, if_neg (by simp only [diCrc]; omega),
        List.getElem?_take, if_pos hlow]
    · rw [if_neg (fun hin => hlow hin.2), if_neg hlow]

theorem forkOp_take (fork : List UInt8) {n : ℕ} (hn : n = fork.length) :
    (forkOp fork).take n = fork := by
  subst hn
  have hle := le_divCeil_mul fork.length (show 0 < 4 by decide)
  rw [forkOp, takeD_eq_append hle, List.take_left']
  rfl

theorem restoreData_fork {dsize start region : ℕ} {fork : List UInt8} (hdsize : dsize = fork.length)
    (hfits : start + fork.length ≤ inode.length) (hroot : fields.testBit 3 = false)
    (hbits : 0 < fork.length → fields.testBit 1 = true ∨ fields.testBit 2 = true)
    (hregion : 0 < fork.length → regions[region]? = some (forkOp fork)) :
    restoreData regions fields dsize start (inode, region) =
      .ok (patch inode start fork, region + (if 0 < fork.length then 1 else 0)) := by
  subst hdsize
  unfold restoreData
  by_cases hpos : 0 < fork.length
  · have hcond : (fields.testBit 1 = true ∨ fields.testBit 2 = true ∨ fields.testBit 3 = true) ∧
        0 < fork.length := ⟨(hbits hpos).imp_right .inl, hpos⟩
    have hmin : min fork.length (inode.length - start) = fork.length := by omega
    dsimp only
    rw [if_pos hcond, hregion hpos]
    dsimp only
    rw [if_neg (by simp [hroot]), if_pos hpos, hmin, forkOp_take fork rfl]
  · have hnil : fork = [] := List.length_eq_zero_iff.mp (by omega)
    subst hnil
    have hsame : patch inode start [] = inode := by simp [patch]
    simp [hsame]

theorem restoreAttr_fork {sb : Superblock} {asize start region : ℕ} {afork : List UInt8}
    (hasize : asize = afork.length)
    (hfits : 0 < afork.length → start + forkoffOf inode + afork.length ≤ inode.length)
    (hbit : 0 < afork.length → fields.testBit 6 = true) (hroot : fields.testBit 8 = false)
    (hregion : regions[region]? = if 0 < afork.length then some (forkOp afork) else none) :
    restoreAttr sb regions fields asize start (inode, region) =
      .ok (if 0 < afork.length then patch inode (start + forkoffOf inode) afork else inode) := by
  subst hasize
  unfold restoreAttr
  dsimp only
  rw [hregion]
  by_cases hpos : 0 < afork.length
  · have hcond : (fields.testBit 6 = true ∨ fields.testBit 7 = true ∨ fields.testBit 8 = true) ∧
        0 < afork.length ∧ start + forkoffOf inode < inode.length :=
      ⟨.inl (hbit hpos), hpos, by omega⟩
    have hmin : min afork.length (inode.length - (start + forkoffOf inode)) = afork.length := by
      omega
    simp only [if_pos hpos]
    rw [if_pos hcond, if_neg (by simp [hroot]), hmin, forkOp_take afork rfl]
  · simp only [if_neg hpos]

end

theorem forkoffOf_eq {a b : List UInt8} (h : a[diForkoff]? = b[diForkoff]?) :
    forkoffOf a = forkoffOf b := by
  rw [forkoffOf, forkoffOf, List.getD_eq_getElem?_getD, List.getD_eq_getElem?_getD, h]

/-- Replaying the item of an inode created over the slot it was built on gives the overlay's image,
away from the unlinked pointer and the checksum. -/
theorem created_eq_restored {crc32c : List UInt8 → ℕ} (hsb : sb.Accepted)
    {inode logged : List UInt8} {item : RawItem} (hlaid : made.Laid sb raw)
    (hitem : made.Item logged item) (hlogged : logDinodeFromDisk made.core = .ok logged)
    (hlen : inode.length = sb.inodesize) (htail : ∀ k, xfsDinodeV3Size ≤ k → inode[k]? = raw[k]?) :
    ∃ image, restoredInode crc32c sb item inode = .ok image ∧
      ∀ k, k < diNextUnlinked ∨ diCrc + 4 ≤ k →
        image[k]? = (loggedInodeImage crc32c sb made.core made.fork)[k]? := by
  obtain ⟨hsize, -⟩ := hsb.inodes
  obtain ⟨forkoff, hoff, hfork, hroom, hcore⟩ := hlaid.forks
  obtain ⟨format, hregions⟩ := hitem.regions_eq
  have hlong : xfsDinodeV3Size ≤ inode.length := by
    rw [hlen]
    exact le_trans (by decide) hsize
  have hversion : versionOf made.core = 3 := by
    rw [versionOf, List.getD_eq_getElem?_getD, hlaid.version_eq]
    rfl
  obtain ⟨out, hout, houtlen, hbytes⟩ := restoreCore_logged hitem.core
    (show item.regions[1]? = some logged by rw [hregions]; rfl) hlogged hversion hlong
  have hstart : forkStart out = xfsDinodeV3Size := by
    have hsame : versionOf out = versionOf made.core :=
      versionOf_eq (by rw [hbytes _ (by decide), if_pos (by decide)])
    rw [forkStart, hsame, hversion]
    rfl
  have hforkroom : xfsDinodeV3Size + made.fork.length ≤ out.length := by
    omega
  have hdata := @restoreData_fork item.regions out (item.field 4 4) (item.field 10 2)
    xfsDinodeV3Size 2 made.fork hitem.dsize hforkroom hitem.root hitem.data
    (fun hpos => by rw [hregions, if_pos hpos]; rfl)
  set both := patch out xfsDinodeV3Size made.fork with hboth
  have hbothlen : both.length = sb.inodesize := by
    rw [hboth, patch_length hforkroom, houtlen, hlen]
  have hforkoff : made.afork ≠ [] → forkoffOf both = forkoff := by
    intro hne
    rw [← hoff hne]
    refine forkoffOf_eq ?_
    rw [hboth, getElem?_patch_of_outside hforkroom (.inl (by decide)), hbytes _ (by decide),
      if_pos (by decide)]
  have hne : 0 < made.afork.length → made.afork ≠ [] := fun hpos => List.length_pos_iff.mp hpos
  have hattr := @restoreAttr_fork item.regions both (item.field 4 4) sb (item.field 8 2)
    xfsDinodeV3Size (2 + (if 0 < made.fork.length then 1 else 0)) made.afork hitem.asize
    (fun hpos => by rw [hforkoff (hne hpos), hbothlen]; exact hroom) hitem.attr hitem.attrRoot
    (by
      rw [hregions]
      by_cases hd : 0 < made.fork.length <;> by_cases ha : 0 < made.afork.length <;>
        simp [hd, ha])
  set attached := if 0 < made.afork.length then
    patch both (xfsDinodeV3Size + forkoffOf both) made.afork else both with hattached
  have hplaced : ∀ k, attached[k]? =
      if xfsDinodeV3Size + forkoff ≤ k ∧ k < xfsDinodeV3Size + forkoff + made.afork.length then
        made.afork[k - (xfsDinodeV3Size + forkoff)]?
      else both[k]? := by
    intro k
    rw [hattached]
    by_cases hpos : 0 < made.afork.length
    · rw [if_pos hpos, hforkoff (hne hpos), getElem?_patch (by rw [hbothlen]; exact hroom)]
    · rw [if_neg hpos, if_neg (by omega)]
  refine ⟨stampInode crc32c sb attached, ?_, fun k hk => ?_⟩
  · simp only [restoredInode, bind_eq_ok]
    refine ⟨(out, 2), hout, (both, 2 + (if 0 < made.fork.length then 1 else 0)), ?_, attached, ?_, rfl⟩
    · rw [hstart]
      exact hdata
    · rw [hstart]
      exact hattr
  · have hcrc : k < diCrc ∨ diCrc + 4 ≤ k := by
      simp only [diNextUnlinked, diCrc] at hk ⊢
      omega
    rw [getElem?_stampInode _ hcrc, hplaced, hboth, getElem?_patch hforkroom, hbytes k hk,
      getElem?_loggedInodeImage hsize hlaid.length_eq hlaid.version_eq (by omega) hcrc]
    by_cases hlow : k < xfsDinodeV3Size
    · rw [if_neg (by omega), if_neg (by omega), if_pos hlow, if_neg (by omega)]
    · rw [hcore k (Nat.le_of_not_lt hlow), if_neg hlow, htail k (Nat.le_of_not_lt hlow)]
      by_cases hdatafork : xfsDinodeV3Size ≤ k ∧ k < xfsDinodeV3Size + made.fork.length
      · rw [if_neg (by omega), if_pos hdatafork, if_pos hdatafork]
      · rw [if_neg hdatafork, if_neg hdatafork]

/-! ## A create and the replay of its record -/

section

variable {sb : Superblock} {agno : ℕ} {take : ℕ → Except Error ℕ} {chunks : List InodeChunk}
  {chosen : Chosen}

theorem chooseSlot_spec (h : chooseSlot sb agno take chunks = .ok chosen) :
    (∃ found, chooseFreeInode chunks = some found ∧ chosen.newChunk = none) ∨
      ∃ chunk, chooseFreeInode chunks = none ∧ chosen.newChunk = some chunk ∧
        chosen.ino sb agno = chunk.ino sb 0 := by
  unfold chooseSlot at h
  cases hfree : chooseFreeInode chunks with
  | some found =>
    rw [hfree] at h
    have hchosen := Except.ok.inj h
    subst hchosen
    exact .inl ⟨found, rfl, rfl⟩
  | none =>
    rw [hfree] at h
    simp only [bind_eq_ok, ensure_eq_ok, exists_and_left, exists_const] at h
    obtain ⟨-, agblock, -, -, h⟩ := h
    have hchosen := Except.ok.inj h
    subst hchosen
    refine .inr ⟨⟨agno, agblock⟩, rfl, rfl, ?_⟩
    set chunk : NewChunk := ⟨agno, agblock⟩ with hchunk
    set at_ := (chunks.findIdx? fun c => decide (chunk.startino sb < c.startino)).getD chunks.length
      with hat
    have hle : at_ ≤ chunks.length := by
      rw [hat]
      cases hidx : chunks.findIdx? fun c => decide (chunk.startino sb < c.startino) with
      | none => exact le_refl _
      | some i => exact le_of_lt (List.findIdx?_eq_some_iff_getElem.mp hidx).1
    have hget : (chunks.insertIdx at_ (chunk.record sb))[at_]? = some (chunk.record sb) := by
      rw [List.getElem?_insertIdx_self, if_pos hle]
    change sb.joinIno agno ((((chunks.insertIdx at_ (chunk.record sb))[at_]?.map
      InodeChunk.startino).getD 0 + 0) % 2 ^ 32) = _
    rw [hget]
    rfl

end

def putInodes (sb : Superblock) (chunk : NewChunk) (image : ℕ → List UInt8) (slots : List ℕ)
    (st : Replaying) : Except Error Replaying :=
  slots.foldlM (fun st slot => do
    let at_ ← sb.inodeOffset (chunk.ino sb slot)
    st.wrote at_ (image slot)) st

section

variable {sb : Superblock} (hsb : sb.Accepted) {chunk : NewChunk} (hfits : chunk.Fits sb)
  (crc32c : List UInt8 → ℕ)

include hsb hfits

theorem icreateSlots_eq {slots : List ℕ} (hslots : ∀ slot ∈ slots, slot < inodesPerChunk)
    (st : Replaying) :
    icreateSlots crc32c sb chunk.agno chunk.agblock newChunkGeneration
        (sb.fsblockOffset (wrap64 (chunk.agno * 2 ^ sb.agblklog) ||| chunk.agblock)) slots st =
      putInodes sb chunk (fun slot => icreateInode crc32c sb (chunk.ino sb slot) newChunkGeneration)
        slots st := by
  obtain ⟨-, -, hper, -⟩ := hsb.inodes
  induction slots generalizing st with
  | nil => rfl
  | cons slot slots ih =>
    have hino : sb.joinIno chunk.agno ((chunk.agblock * 2 ^ sb.inopblog % 2 ^ 32 + slot) % 2 ^ 32) =
        chunk.ino sb slot := by
      rw [← hper]
      rfl
    rw [icreateSlots, putInodes, List.foldlM_cons, hino,
      NewChunk.inodeOffset_chunk hsb hfits (hslots slot List.mem_cons_self)]
    simp only [ih fun slot h => hslots slot (List.mem_cons_of_mem _ h)]
    rfl

theorem applyIcreate_chunk (n : ℕ) (st : Replaying) :
    applyIcreate crc32c sb ⟨[chunk.icreate sb], n⟩ st = (do
      let st ← putInodes sb chunk
        (fun slot => icreateInode crc32c sb (chunk.ino sb slot) newChunkGeneration)
        (List.range inodesPerChunk) st
      pure { st with chunks := st.chunks + 1 }) := by
  obtain ⟨hsize, hsize', hper, hfill⟩ := hsb.inodes
  have hagcount := hsb.agcount_lt
  have hagblocks := hsb.agblocks_lt
  have hagno := hfits.agno_lt
  have hagblock : chunk.agblock < 2 ^ 32 :=
    lt_of_le_of_lt (le_trans (Nat.le_add_right _ _) hfits.agblock_le) hagblocks
  have hlength : inodesPerChunk / sb.inopblock ≤ inodesPerChunk := Nat.div_le_self _ _
  have hcount : inodesPerChunk / sb.inopblock * sb.inopblock = inodesPerChunk :=
    Nat.div_mul_cancel (Nat.dvd_of_mod_eq_zero hfits.divides)
  have hfull : inodesPerChunk * sb.inodesize = inodesPerChunk / sb.inopblock * sb.blocksize := by
    rw [← hfill, ← Nat.mul_assoc, hcount]
  have hwide : ∀ v < 2 ^ 32, beValue (beBytes 4 v) = v := fun v hv =>
    beValue_beBytes_of_lt (lt_of_lt_of_eq hv (by norm_num))
  have hbe : ∀ {at_ v : ℕ}, v < 2 ^ 32 → slice (chunk.icreate sb) at_ 4 = beBytes 4 v →
      beValue (slice (chunk.icreate sb) at_ 4) = v := fun hv hslice => by
    rw [hslice, hwide _ hv]
  have hag : beValue (slice (chunk.icreate sb) 4 4) = chunk.agno := hbe (by omega) rfl
  have hbno : beValue (slice (chunk.icreate sb) 8 4) = chunk.agblock := hbe hagblock rfl
  have hper64 : beValue (slice (chunk.icreate sb) 12 4) = inodesPerChunk := hbe (by decide) rfl
  have hisize : beValue (slice (chunk.icreate sb) 16 4) = sb.inodesize := hbe (by omega) rfl
  have hblocks : beValue (slice (chunk.icreate sb) 20 4) = inodesPerChunk / sb.inopblock :=
    hbe (lt_of_le_of_lt hlength (by decide)) rfl
  have hgen : beValue (slice (chunk.icreate sb) 24 4) = newChunkGeneration := hbe (by decide) rfl
  have hformat : RawItem.format ⟨[chunk.icreate sb], n⟩ = chunk.icreate sb := rfl
  unfold applyIcreate
  simp only [hformat, hag, hbno, hper64, hisize, hblocks, hgen]
  rw [ensure_of hagno, ensure_of hfull, ensure_of trivial]
  change (icreateSlots crc32c sb _ _ _ _ _ st >>= _) = _
  rw [icreateSlots_eq hsb hfits crc32c fun slot h => List.mem_range.mp h]

end

section

variable (crc32c : List UInt8 → ℕ) (sb : Superblock)

/-- The inodes of the chunk a create makes, and the inode it creates, are in the overlay as replay
of the same record writes them. -/
def ImagesAgree (chosen : Chosen) (made : Created) (item : RawItem) : Prop :=
  ∀ chunk, chosen.newChunk = some chunk →
    (∀ slot < inodesPerChunk, chunk.overlayImage crc32c sb slot =
      icreateInode crc32c sb (chunk.ino sb slot) newChunkGeneration) ∧
    restoredInode crc32c sb item (icreateInode crc32c sb (chunk.ino sb 0) newChunkGeneration) =
      .ok (loggedInodeImage crc32c sb made.core made.fork)

/-- The same for all but the unlinked pointer and the checksum. Replay puts its images where the mount
puts its own. -/
def ImagesAgreeOutside (chosen : Chosen) (made : Created) (item : RawItem) : Prop :=
  ∀ chunk, chosen.newChunk = some chunk →
    (∀ slot < inodesPerChunk, ∀ k, k < diNextUnlinked ∨ diCrc + 4 ≤ k →
      (chunk.overlayImage crc32c sb slot)[k]? =
        (icreateInode crc32c sb (chunk.ino sb slot) newChunkGeneration)[k]?) ∧
    (∃ image, restoredInode crc32c sb item
        (icreateInode crc32c sb (chunk.ino sb 0) newChunkGeneration) = .ok image ∧
      ∀ k, k < diNextUnlinked ∨ diCrc + 4 ≤ k →
        image[k]? = (loggedInodeImage crc32c sb made.core made.fork)[k]?) ∧
    (chunk.Fits sb → ∀ n st, applyIcreate crc32c sb ⟨[chunk.icreate sb], n⟩ st = do
      let st ← putInodes sb chunk
        (fun slot => icreateInode crc32c sb (chunk.ino sb slot) newChunkGeneration)
        (List.range inodesPerChunk) st
      pure { st with chunks := st.chunks + 1 })

end

section

variable {crc32c : List UInt8 → ℕ} {sb : Superblock} (hsb : sb.Accepted)
  (huuid : sb.metaUuid.length = 16)

include hsb huuid

theorem not_imagesAgree {chosen : Chosen} {chunk : NewChunk} (hchunk : chosen.newChunk = some chunk)
    (made : Created) (item : RawItem) : ¬ImagesAgree crc32c sb chosen made item := by
  intro h
  obtain ⟨hslots, -⟩ := h chunk hchunk
  obtain ⟨hzero, hnull⟩ := overlayImage_unlinked hsb huuid crc32c chunk 0
  rw [hslots 0 (by decide), hnull] at hzero
  exact absurd (Option.some.inj hzero) (by decide)

theorem imagesAgreeOutside_of_created {agno : ℕ} {takeChunk take : ℕ → Except Error ℕ}
    {chunks : List InodeChunk} {chosen : Chosen} {logged : List UInt8} {made : Created}
    (hchosen : chooseSlot sb agno takeChunk chunks = .ok chosen)
    (hraw : chosen.newChunk ≠ none → raw = freshlyInitialisedInode sb (chosen.ino sb agno))
    (hmade : createInode sb (chosen.ino sb agno) raw take request = .ok made)
    (hlogged : logDinodeFromDisk made.core = .ok logged) (buffer : InodeBuffer) (n : ℕ) :
    ImagesAgreeOutside crc32c sb chosen made
      ⟨made.ops (chosen.ino sb agno) buffer logged, n⟩ := by
  intro chunk hchunk
  obtain ⟨hsize, hsize', -⟩ := hsb.inodes
  have hfresh : raw = freshlyInitialisedInode sb (chunk.ino sb 0) := by
    rcases chooseSlot_spec hchosen with ⟨-, -, hnone⟩ | ⟨chunk', -, hsome, hino⟩
    · rw [hnone] at hchunk
      cases hchunk
    · rw [hsome] at hchunk
      rw [hraw (by rw [hsome]; simp), hino, Option.some.inj hchunk]
  subst hfresh
  have hlen := freshlyInitialisedInode_length hsb huuid (chunk.ino sb 0)
  have hlaid := createInode_laid hsb hlen (freshlyInitialisedInode_version hsb huuid _) hmade
  obtain ⟨forkoff, -, hfork, hroom, -⟩ := hlaid.forks
  have hitem := Created.item_ops hlaid.field_eq (by omega) (by omega) (chosen.ino sb agno) buffer
    logged n
  have hicreate : (icreateInode crc32c sb (chunk.ino sb 0) newChunkGeneration).length =
      sb.inodesize := by
    rw [icreateInode_eq hsb huuid, stampInode_length, patch_length, hlen]
    rw [beBytes_length, hlen]
    simp only [diNextUnlinked]
    omega
  have htail : ∀ k, xfsDinodeV3Size ≤ k →
      (icreateInode crc32c sb (chunk.ino sb 0) newChunkGeneration)[k]? =
        (freshlyInitialisedInode sb (chunk.ino sb 0))[k]? := by
    intro k hk
    simp only [xfsDinodeV3Size] at hk
    rw [icreateInode_eq hsb huuid, getElem?_stampInode _ (.inr (by simp only [diCrc]; omega)),
      getElem?_patch_of_outside]
    · rw [beBytes_length, hlen]
      simp only [diNextUnlinked]
      omega
    · rw [beBytes_length]
      simp only [diNextUnlinked]
      omega
  exact ⟨fun slot _ k hk => overlayImage_eq_icreate hsb huuid crc32c chunk slot hk,
    created_eq_restored hsb hlaid hitem hlogged hicreate htail,
    fun hfits n st => applyIcreate_chunk hsb hfits crc32c n st⟩

theorem chunk_images_agree_iff {agno : ℕ} {takeChunk take : ℕ → Except Error ℕ}
    {chunks : List InodeChunk} {chosen : Chosen} {raw logged : List UInt8}
    {request : CreateRequest} {made : Created}
    (hchosen : chooseSlot sb agno takeChunk chunks = .ok chosen)
    (hraw : chosen.newChunk ≠ none → raw = freshlyInitialisedInode sb (chosen.ino sb agno))
    (hmade : createInode sb (chosen.ino sb agno) raw take request = .ok made)
    (hlogged : logDinodeFromDisk made.core = .ok logged) (buffer : InodeBuffer) (n : ℕ) :
    (ImagesAgree crc32c sb chosen made ⟨made.ops (chosen.ino sb agno) buffer logged, n⟩ ↔
      ∃ found, chooseFreeInode chunks = some found) ∧
    ImagesAgreeOutside crc32c sb chosen made
      ⟨made.ops (chosen.ino sb agno) buffer logged, n⟩ := by
  refine ⟨⟨fun hagree => ?_, ?_⟩,
    imagesAgreeOutside_of_created hsb huuid hchosen hraw hmade hlogged buffer n⟩
  · rcases chooseSlot_spec hchosen with ⟨found, hfound, -⟩ | ⟨chunk, -, hsome, -⟩
    · exact ⟨found, hfound⟩
    · exact absurd hagree (not_imagesAgree hsb huuid hsome _ _)
  · rintro ⟨found, hfound⟩ chunk hchunk
    rcases chooseSlot_spec hchosen with ⟨-, -, hnone⟩ | ⟨-, hfree, -⟩
    · rw [hnone] at hchunk
      cases hchunk
    · rw [hfree] at hfound
      cases hfound

end

/-! ### The first chunk of a group -/

def eightInodes : Superblock where
  blocksize := 4096
  dblocks := 128
  logstart := 32
  rootino := 128
  agblocks := 64
  agcount := 2
  logblocks := 8
  sectsize := 512
  inodesize := 512
  inopblock := 8
  blocklog := 12
  sectlog := 9
  inodelog := 9
  inopblog := 3
  agblklog := 6
  inprogress := 0
  dirblklog := 0
  logsunit := 0

theorem eightInodes_accepted : eightInodes.Accepted := by
  decide

def firstFile : CreateRequest where
  parent := 128
  mode := 0o644
  kind := .file
  target := []
  parentFork := none
  when_ := ⟨1700000000, 0⟩

def firstChunk : NewChunk where
  agno := 1
  agblock := 16

def firstChosen : Chosen where
  chunks := [firstChunk.record eightInodes]
  index := 0
  slot := 0
  newChunk := some firstChunk

theorem firstChosen_chosen : chooseSlot eightInodes 1 (fun _ => .ok 16) [] = .ok firstChosen := by
  decide +kernel

theorem firstFile_created : ∃ made logged,
    createInode eightInodes (firstChosen.ino eightInodes 1)
        (freshlyInitialisedInode eightInodes (firstChosen.ino eightInodes 1)) (fun _ => .ok 0)
        firstFile = .ok made ∧ logDinodeFromDisk made.core = .ok logged := by
  obtain ⟨made, hmade⟩ := exists_ok_of_toBool (show (createInode eightInodes
    (firstChosen.ino eightInodes 1)
    (freshlyInitialisedInode eightInodes (firstChosen.ino eightInodes 1)) (fun _ => .ok 0)
    firstFile).toBool = true by decide +kernel)
  have hlen := freshlyInitialisedInode_length eightInodes_accepted (by decide)
    (firstChosen.ino eightInodes 1)
  have hversion := freshlyInitialisedInode_version eightInodes_accepted (by decide)
    (firstChosen.ino eightInodes 1)
  have hlaid := createInode_laid eightInodes_accepted hlen hversion hmade
  have hthree : versionOf made.core = 3 := by
    rw [versionOf, List.getD_eq_getElem?_getD, hlaid.version_eq]
    rfl
  obtain ⟨logged, hlogged⟩ := @logDinodeFromDisk_ok made.core logDinodeSize (by rw [hthree]; rfl)
    (le_of_le_of_eq (by decide) hlaid.length_eq.symm)
  exact ⟨made, logged, hmade, hlogged⟩

theorem firstChunk_images : ∃ made logged,
    createInode eightInodes (firstChosen.ino eightInodes 1)
        (freshlyInitialisedInode eightInodes (firstChosen.ino eightInodes 1)) (fun _ => .ok 0)
        firstFile = .ok made ∧
      ImagesAgreeOutside (fun _ => 7) eightInodes firstChosen made
        ⟨made.ops (firstChosen.ino eightInodes 1) (InodeBuffer.containing 327680 16384) logged, 2⟩ := by
  obtain ⟨made, logged, hmade, hlogged⟩ := firstFile_created
  exact ⟨made, logged, hmade, (chunk_images_agree_iff eightInodes_accepted (by decide)
    firstChosen_chosen (fun _ => rfl) hmade hlogged _ 2).2⟩

/-- The first file of a group: the mount holds its inode, and the sixty-three beside it, with an
unlinked pointer of zero, and replay writes them with a null one. -/
theorem firstChunk_images_differ : ∃ made logged,
    chooseSlot eightInodes 1 (fun _ => .ok 16) [] = .ok firstChosen ∧
      createInode eightInodes (firstChosen.ino eightInodes 1)
        (freshlyInitialisedInode eightInodes (firstChosen.ino eightInodes 1)) (fun _ => .ok 0)
        firstFile = .ok made ∧ logDinodeFromDisk made.core = .ok logged ∧
      ¬ImagesAgree (fun _ => 7) eightInodes firstChosen made
        ⟨made.ops (firstChosen.ino eightInodes 1) (InodeBuffer.containing 327680 16384) logged, 2⟩ := by
  obtain ⟨made, logged, hmade, hlogged⟩ := firstFile_created
  exact ⟨made, logged, firstChosen_chosen, hmade, hlogged,
    not_imagesAgree eightInodes_accepted (by decide) (show firstChosen.newChunk = some firstChunk
      from rfl) made _⟩

end FsXfs
