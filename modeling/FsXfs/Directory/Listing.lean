import FsXfs.Directory.Block
import FsXfs.Extent
import FsXfs.Lib.Bytes

/-!
# Listing a directory

`Filesystem::read_dir` and `check::every_data_block_parses` walk a directory's extents, and read a
directory block as one run of the device from the filesystem block they are at. `read_dir_block`
puts the same block together one filesystem block at a time, through the map.
-/

namespace FsXfs.Directory

open Bytes Quota Names

set_option autoImplicit false

/-! ## Blocks and file blocks -/

section

variable (sb : Superblock)

def perBlock : ℕ :=
  sb.dirblocksize / sb.blocksize

-- `XFS_DIR2_LEAF_OFFSET`, the entries lie below it
abbrev dirLeafFileOffset : ℕ := 2 ^ 35

def dataBlockLimit : ℕ :=
  dirLeafFileOffset / sb.blocksize

def blknoOfFsbno (fsbno : ℕ) : ℕ :=
  sb.fsblockOffset fsbno / 512

end

def steps (start last step : ℕ) : List ℕ :=
  (List.range (divCeil (last - start) step)).map fun k => start + k * step

def ordinary (entries : List DirEntry) : List DirEntry :=
  entries.filter fun e => decide (e.name ≠ [46] ∧ e.name ≠ [46, 46])

section

variable (crc32c : List UInt8 → ℕ) (sb : Superblock) (device : Device) (ino : ℕ)

def verifyDirBlock (block : List UInt8) (fsblock : ℕ) : Except Error Unit :=
  if sb.isV5 then
    let daddr := blknoOfFsbno sb fsblock
    if beAt block 0 4 ∈ [xfsDir3BlockMagic, xfsDir3DataMagic, xfsDir3FreeMagic] then
      verifyDataBlock crc32c sb block daddr ino
    else if beAt block 8 2 ∈ [xfsDir3Leaf1Magic, xfsDir3LeafnMagic, xfsDa3NodeMagic] then
      verifyDaBlock crc32c sb block daddr ino
    else .ok ()
  else .ok ()

/-! ## Over the extents -/

def parsed (block : List UInt8) (why : String) : Except Error (List DirEntry) :=
  match parseDataBlock sb block with
  | .ok entries => .ok entries
  | .error _ => .error (.badSuperblock why)

def listBlock (e : Extent) (fileBlock : ℕ) : Except Error (List DirEntry) := do
  let phys ← orElse (e.map fileBlock) (.panicked "block inside its own extent")
  let block ← device.readAt (sb.fsblockOffset phys) sb.dirblocksize
  let entries ← parsed sb block
    s!"directory inode {ino}: the data block at file block {fileBlock} does not parse"
  verifyDirBlock crc32c sb ino block phys
  return ordinary entries

def dataExtent (e : Extent) : Bool :=
  decide (e.startoff < dataBlockLimit sb) && !e.unwritten

def places (e : Extent) : List (Extent × ℕ) :=
  (steps e.startoff (min e.endOffset (dataBlockLimit sb)) (perBlock sb)).map fun fb => (e, fb)

def readDir (extents : List Extent) : Except Error (List DirEntry) := do
  let below := extents.takeWhile fun e => decide (e.startoff < dataBlockLimit sb)
  let lists ← ((below.filter fun e => !e.unwritten).flatMap (places sb)).mapM fun p =>
    listBlock crc32c sb device ino p.1 p.2
  return lists.flatten

def blockParses (e : Extent) (at_ : ℕ) : Except Error Unit :=
  match e.map (max at_ e.startoff) with
  | none => .ok ()
  | some phys => do
    let block ← device.readAt (sb.fsblockOffset phys) sb.dirblocksize
    let _ ← parsed sb block
      s!"directory {ino}: the data block at file block {at_} is not one"
    return ()

def parsePlaces (e : Extent) : List (Extent × ℕ) :=
  (steps (e.startoff - e.startoff % perBlock sb) (min e.endOffset (dataBlockLimit sb))
    (perBlock sb)).map fun fb => (e, fb)

def everyDataBlockParses (extents : List Extent) : Except Error Unit := do
  let _ ← ((extents.filter (dataExtent sb)).flatMap (parsePlaces sb)).mapM fun p =>
    blockParses sb device ino p.1 p.2
  return ()

/-! ## Through the map -/

def mapBlock (extents : List Extent) (fileBlock : ℕ) : Option ℕ :=
  match lookup extents fileBlock with
  | none => none
  | some e => if e.unwritten then none else e.map fileBlock

def readPieces (extents : List Extent) : ℕ → ℕ → Except Error (Option (List UInt8))
  | _, 0 => .ok (some [])
  | fileBlock, n + 1 =>
    match mapBlock extents fileBlock with
    | none => .ok none
    | some phys => do
      let piece ← device.readAt (sb.fsblockOffset phys) sb.blocksize
      let rest ← readPieces extents (fileBlock + 1) n
      return rest.map (piece ++ ·)

def verifiedAt (first : Option ℕ) (out : List UInt8) : Except Error Unit :=
  match first with
  | none => .ok ()
  | some phys => verifyDirBlock crc32c sb ino out phys

def readDirBlock (extents : List Extent) (dirBlock : ℕ) : Except Error (Option (List UInt8)) := do
  let out ← readPieces sb device extents (dirBlock * perBlock sb) (perBlock sb)
  match out with
  | none => return none
  | some out =>
    verifiedAt crc32c sb ino (mapBlock extents (dirBlock * perBlock sb)) out
    return some out

end

end FsXfs.Directory
