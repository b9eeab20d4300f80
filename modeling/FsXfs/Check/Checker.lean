import FsXfs.Superblock.Sector
import FsXfs.Names.ShortForm
import FsXfs.Extent

/-!
# What a check finds

`check.rs`: the findings of the walk through the directories, and the blocks that forks claim. What the
volume holds is taken as read: an inode is whatever its parse made of it, an error included.
-/

namespace FsXfs.Check

open Names

set_option autoImplicit false

/-! ## Findings -/

inductive Code where
  | checksum | identity | rangeBlock | rangeExtent | crossLink | extentUnreadable | rtExtent
  | dirNotADirectory | dirUnreadable | dirEntryTarget | dirEntryFtype | dirReachedTwice
  deriving DecidableEq, Repr

structure Location where
  ag : Option ℕ
  agbno : Option ℕ
  ino : Option ℕ
  deriving DecidableEq, Repr

structure Finding where
  code : Code
  location : Location
  deriving DecidableEq, Repr

/-! ## What is read -/

/-- What a lenient read of a short-form directory read past. -/
structure Tolerated where
  types : List (List UInt8 × ℕ)
  parent : Bool

/-- A fork of extents or the root of a tree of them: the extents, and the blocks of the tree. -/
abbrev ForkMap := Except Error (List Extent × List ℕ)

structure Inode where
  mode : ℕ
  realtime : Bool
  format : Format
  data : ForkMap
  attr : Option (Format × ForkMap)
  shortForm : Except Error (ShortFormDir × Tolerated)

namespace Inode

def fileType (inode : Inode) : Option FileType :=
  match inode.mode / 4096 % 16 with
  | 8 => some .regular
  | 4 => some .directory
  | 10 => some .symlink
  | 2 => some .charDevice
  | 6 => some .blockDevice
  | 1 => some .fifo
  | 12 => some .socket
  | _ => none

def isDir (inode : Inode) : Bool :=
  decide (inode.fileType = some .directory)

end Inode

structure Image where
  sb : WholeSuperblock
  crc32c : List UInt8 → ℕ
  device : Device
  inodes : List (ℕ × Except Error Inode)

namespace Image

def readInodeRaw (im : Image) (ino : ℕ) : Except Error Inode :=
  match im.inodes.lookup ino with
  | some read => read
  | none => .error (.badSuperblock s!"inode {ino} is outside the filesystem")

def agLength (im : Image) (ag : ℕ) : ℕ :=
  im.sb.groupLength ag

end Image

/-! ## What is known -/

inductive Owner where
  | unclaimed | data (ino : ℕ) | attr (ino : ℕ) | extentTree (ino : ℕ)
  deriving DecidableEq, Repr

namespace Owner

def isFileData : Owner → Bool
  | .data _ => true
  | _ => false

def ino : Owner → Option ℕ
  | .data i | .attr i | .extentTree i => some i
  | _ => none

def orElse : Owner → Owner → Owner
  | .unclaimed, owner => owner
  | was, _ => was

end Owner

structure Claim where
  start : ℕ
  len : ℕ
  owner : Owner
  deriving DecidableEq, Repr

def Claim.covers (k : Claim) (b : ℕ) : Bool :=
  decide (k.start ≤ b) && decide (b < k.start + k.len)

structure Checker where
  found : List Finding
  walkedInodes : ℕ
  walkedDirectories : ℕ
  owners : ℕ → ℕ → Owner
  shared : ℕ → ℕ → Bool
  allocated : List ℕ
  free : List ℕ
  rtUsed : List (ℕ × ℕ × ℕ)
  claimed : ℕ → List Claim
  inodesUnlisted : List ℕ

def at_ (ag ino : Option ℕ) : Location :=
  { ag := ag, agbno := none, ino := ino }

namespace Checker

variable (im : Image)

def findAt (c : Checker) (code : Code) (location : Location) : Checker :=
  let location := match location.ag, location.ino with
    | none, some ino => { location with ag := some (im.sb.splitIno ino).1 }
    | _, _ => location
  { c with found := c.found ++ [⟨code, location⟩] }

def find (c : Checker) (code : Code) (ag ino : Option ℕ) : Checker :=
  c.findAt im code (at_ ag ino)

def failed (c : Checker) (code : Code) (e : Error) (ag ino : Option ℕ) : Checker :=
  match e with
  | .checksumMismatch _ _ => c.find im .checksum ag ino
  | .blockIdentityMismatch _ _ _ => c.find im .identity ag ino
  | _ => c.find im code ag ino

/-! ## Claims -/

def book (c : Checker) (ag : ℕ) (k : Claim) : Checker :=
  { c with
    claimed := Function.update c.claimed ag (c.claimed ag ++ [k])
    owners := Function.update c.owners ag fun b =>
      if k.covers b then (c.owners ag b).orElse k.owner else c.owners ag b }

def clashes (c : Checker) (ag : ℕ) (owner : Owner) (b : ℕ) : Bool :=
  decide (c.owners ag b ≠ .unclaimed) &&
    !((c.owners ag b).isFileData && owner.isFileData && c.shared ag b)

def claim (c : Checker) (ag start len : ℕ) (owner : Owner) : Checker :=
  if ag < im.sb.agcount then
    if start < im.agLength ag ∧ len ≤ im.agLength ag - start then
      let booked := c.book ag ⟨start, len, owner⟩
      match (List.range' start len).find? (c.clashes ag owner) with
      | none => booked
      | some b => booked.findAt im .crossLink
          { ag := some ag, agbno := some b, ino := owner.ino }
    else
      c.findAt im .rangeBlock
        { ag := some ag, agbno := some start, ino := owner.ino }
  else
    c.find im .rangeBlock none none

def claimFsblocks (c : Checker) (fsblock len : ℕ) (owner : Owner) : Checker :=
  let (ag, agbno) := im.sb.splitFsblock fsblock
  if len < 2 ^ 32 then c.claim im ag agbno len owner
  else c.find im .rangeExtent (some ag) owner.ino

end Checker

end FsXfs.Check
