import FsXfs.Group.FreeList
import FsXfs.Mkfs.Layout

/-!
# Writing a format

`mkfs::write`: the writes a plan is carried out with, each an offset on the device and its bytes, in
the order they are issued. The first and last megabyte are zeroed, every group gets its headers and
the roots of its trees, then come the inode chunk and the log, and the primary superblock last.
-/

namespace FsXfs.Mkfs

open Bytes Quota FsXfs.Group

set_option autoImplicit false

abbrev DevWrite := ℕ × List UInt8

abbrev zeroChunk : ℕ := 4 * mib

def zero (offset len : ℕ) : List DevWrite :=
  (List.range (divCeil len zeroChunk)).map fun k =>
    (offset + k * zeroChunk, List.replicate (min zeroChunk (len - k * zeroChunk)) 0)

/-- Numbers laid out at their offsets, with their widths. -/
def putNumbers (numbers : List (ℕ × ℕ × ℕ)) : List (ℕ × List UInt8) :=
  numbers.map fun f => (f.1, beBytes f.2.1 f.2.2)

section

variable (crc32c : List UInt8 → ℕ) (p : Plan)

def stamp (buf : List UInt8) (at_ : ℕ) : List UInt8 :=
  patch buf at_ (leBytes 4 (crc32cWithZeroedCrc crc32c buf at_))

/-! ## The headers of a group -/

def copyOf (ag : ℕ) : WholeSuperblock :=
  { p.sb with
    inprogress := 1
    rbmino := u64Max
    rsumino := u64Max
    rootino := if ag = p.logAg then u64Max else p.sb.rootino
    icount := 0
    ifree := 0
    fdblocks := p.sb.fdblocks + p.chunkBlocks }

def copySector (ag : ℕ) : Except Error (List UInt8) :=
  if ag = 0 then .ok (List.replicate sector 0)
  else WholeSuperblock.apply crc32c (List.replicate sector 0) (copyOf p ag)

def agf (ag length : ℕ) (free : List (ℕ × ℕ)) : List UInt8 :=
  let hb := p.headerBlocks
  let numbers := [(0, 4, xfsAgfMagic), (4, 4, 1), (agfSeqno, 4, ag), (agfLength, 4, length),
    (agfRoots, 4, hb), (agfRoots + 4, 4, hb + 1), (agfLevels, 4, 1), (agfLevels + 4, 4, 1),
    (agfFlfirst, 4, 1), (agfFllast, 4, agflFill), (agfFlcount, 4, agflFill),
    (agfFreeblks, 4, (free.map Prod.snd).sum),
    (agfLongest, 4, (free.map Prod.snd).foldl max 0), (agfRefcountBlocks, 4, 1),
    (agfRefcountRoot, 4, hb + 4), (agfRefcountLevel, 4, 1)]
  stamp crc32c
    (putAll (List.replicate sector 0) (putNumbers numbers ++ [(agfUuid, p.sb.metaUuid)])) agfCrc

abbrev xfsAgiMagic : ℕ := 0x58414749
abbrev agiUnlinkedBuckets : ℕ := 64
abbrev agiUuid : ℕ := 296
abbrev agiCrc : ℕ := 312

def agi (ag length : ℕ) : List UInt8 :=
  let hb := p.headerBlocks
  let (count, freecount, newino) := if ag = 0
    then (inodesPerChunk, inodesPerChunk - 3, p.chunkAgbno * 2 ^ p.sb.inopblog)
    else (0, 0, 2 ^ 32 - 1)
  let numbers := [(0, 4, xfsAgiMagic), (4, 4, 1), (8, 4, ag), (12, 4, length), (16, 4, count),
    (20, 4, hb + 2), (24, 4, 1), (28, 4, freecount), (32, 4, newino), (36, 4, 2 ^ 32 - 1),
    (328, 4, hb + 3), (332, 4, 1), (336, 4, 1), (340, 4, 1)]
  let unlinked := (List.range agiUnlinkedBuckets).map fun bucket => (40 + 4 * bucket, 4, 2 ^ 32 - 1)
  stamp crc32c (putAll (List.replicate sector 0)
    (putNumbers (numbers ++ unlinked) ++ [(agiUuid, p.sb.metaUuid)])) agiCrc

def agflSlots : ℕ :=
  (sector - 36) / 4

def agfl (ag start : ℕ) : List UInt8 :=
  let slots := (List.range agflSlots).map fun slot =>
    (36 + 4 * slot, 4, if 1 ≤ slot ∧ slot ≤ agflFill then start + (slot - 1) else nullAgblock)
  stamp crc32c (putAll (List.replicate sector 0)
    (putNumbers ([(0, 4, xfsAgflMagic), (4, 4, ag)] ++ slots) ++ [(8, p.sb.metaUuid)])) agflCrc

def header (ag length agflStart : ℕ) (free : List (ℕ × ℕ)) (copy : List UInt8) : List UInt8 :=
  copy ++ agf crc32c p ag length free ++ agi crc32c p ag length ++ agfl crc32c p ag agflStart ++
    List.replicate (p.headerBlocks * p.sb.blocksize - 4 * sector) 0

/-! ## The roots of a group's trees -/

def leaf (ag magic agbno : ℕ) (records : List (List UInt8)) : List UInt8 :=
  let numbers := [(0, 4, magic), (6, 2, records.length), (8, 4, nullAgblock), (12, 4, nullAgblock),
    (16, 8, p.daddr ag agbno), (48, 4, ag)]
  stamp crc32c (putAll (List.replicate p.sb.blocksize 0)
    (putNumbers numbers ++ [(32, p.sb.metaUuid), (56, records.flatten)])) 52

def extentRecord (e : ℕ × ℕ) : List UInt8 :=
  beBytes 4 e.1 ++ beBytes 4 e.2

def chunkRecord : List UInt8 :=
  beBytes 4 (p.chunkAgbno * 2 ^ p.sb.inopblog) ++ beBytes 2 0 ++
    [UInt8.ofNat inodesPerChunk, UInt8.ofNat (inodesPerChunk - 3)] ++ beBytes 8 (2 ^ 64 - 1 - 7)

def byCount (free : List (ℕ × ℕ)) : List (ℕ × ℕ) :=
  free.mergeSort fun a b => decide (a.2 < b.2) || (decide (a.2 = b.2) && decide (a.1 ≤ b.1))

def roots (ag : ℕ) (free : List (ℕ × ℕ)) : List UInt8 :=
  let hb := p.headerBlocks
  let chunk := if ag = 0 then [chunkRecord p] else []
  leaf crc32c p ag 0x41423342 hb (free.map extentRecord) ++
    leaf crc32c p ag 0x41423343 (hb + 1) ((byCount free).map extentRecord) ++
    leaf crc32c p ag 0x49414233 (hb + 2) chunk ++
    leaf crc32c p ag 0x46494233 (hb + 3) chunk ++
    leaf crc32c p ag 0x52334643 (hb + 4) []

def writeGroup (ag : ℕ) : Except Error (List DevWrite) := do
  let length ← p.length ag
  let free ← p.freeExtents ag
  let copy ← copySector crc32c p ag
  let start ← p.agflStart ag
  return [(p.offset ag 0, header crc32c p ag length start free copy),
    (p.offset ag p.headerBlocks, roots crc32c p ag free)]

/-! ## The inode chunk and the log -/

abbrev xfsDinodeMagic : ℕ := 0x494e

-- mode, format, link count, size and flags of the inodes a format allocates
def firstInode (n : ℕ) : ℕ × ℕ × ℕ × ℕ × ℕ :=
  if n = 0 then (0o040755, 1, 2, 6, 0)
  else if n = 1 then (0o100000, 2, 1, 0, 4)
  else (0o100000, 2, 1, 0, 0)

def bigtime (secs nsec : ℕ) : ℕ :=
  (secs + 2 ^ 31) * 1000000000 + nsec

def inodeNumbers (now n : ℕ) : List (ℕ × ℕ × ℕ) :=
  let (mode, format, nlink, size, flags) := firstInode n
  [(2, 2, mode), (5, 1, format), (16, 4, nlink), (32, 8, bigtime 0 0), (40, 8, now), (48, 8, now),
    (56, 8, size), (83, 1, 2), (90, 2, flags), (104, 8, 2), (120, 8, 8), (144, 8, now)]

-- the root's empty short form has itself for a parent
def rootFork (n : ℕ) : List (ℕ × ℕ × ℕ) :=
  if n = 0 then [(178, 4, p.sb.rootino)] else []

def inode (now n : ℕ) : List UInt8 :=
  let numbers := [(0, 2, xfsDinodeMagic), (4, 1, 3), (96, 4, 2 ^ 32 - 1), (152, 8, p.sb.rootino + n)]
  let used := if n < 3 then inodeNumbers now n ++ rootFork p n else []
  stamp crc32c (putAll (List.replicate inodeSize 0)
    (putNumbers (numbers ++ used) ++ [(160, p.sb.metaUuid)])) 100

def inodeChunk (now : ℕ) : DevWrite :=
  (p.offset 0 p.chunkAgbno, (List.range inodesPerChunk).flatMap (inode crc32c p now))

-- one record that holds an unmount, its first word displaced by the cycle number
def unmountRecord : List UInt8 :=
  putAll (List.replicate (2 * sector) 0)
    (putNumbers [(0, 4, 0xfeedbabe), (4, 4, 1), (8, 4, 2), (12, 4, sector), (16, 8, 2 ^ 32),
      (24, 8, 2 ^ 32), (36, 4, 2 ^ 32 - 1), (40, 4, 1), (44, 4, 0xb0c0d0d0), (300, 4, 1),
      (320, 4, 32 * 1024), (sector, 4, 1), (sector + 4, 4, 8), (sector + 8, 1, 0xaa),
      (sector + 9, 1, 0x20)] ++ [(304, p.sb.uuid), (sector + 12, leBytes 2 0x556e)])

def writeLog : List DevWrite :=
  let start := p.offset p.logAg p.logAgbno
  zero start (p.sb.logblocks * p.sb.blocksize) ++ [(start, unmountRecord p)]

/-! ## The whole format -/

/-- Everything between the zeroing of the first megabyte and the primary superblock. -/
def laidOut (size now : ℕ) : Except Error (List DevWrite) := do
  let groups ← (List.range p.sb.agcount).mapM (writeGroup crc32c p)
  return zero (size - mib) (min mib size) ++ groups.flatten ++ [inodeChunk crc32c p now] ++ writeLog p

def write (size now : ℕ) : Except Error (List DevWrite) := do
  let layout ← laidOut crc32c p size now
  let primary ← WholeSuperblock.apply crc32c (List.replicate sector 0) p.sb
  return zero 0 (min mib size) ++ layout ++ [(0, primary)]

end

end FsXfs.Mkfs
