import FsXfs.Superblock.Sector

/-!
# Planning a format

`mkfs::plan`: the geometry of a new filesystem from the size of the device and what the caller
chose. Machine arithmetic is checked: `fit` and `less` panic where the source's integer types would
overflow or underflow, so that a plan that is returned was computed without either.
-/

namespace FsXfs.Mkfs

set_option autoImplicit false

/-! ## Checked arithmetic -/

def overflow : Error :=
  .panicked "attempt to compute with overflow"

/-- A value of an unsigned type of `width` bits. -/
def fit (width n : ℕ) : Except Error ℕ := do
  ensure (n < 2 ^ width) overflow
  return n

def less (a b : ℕ) : Except Error ℕ := do
  ensure (b ≤ a) overflow
  return a - b

/-! ## Constants -/

abbrev mib : ℕ := 1024 * 1024
abbrev gib : ℕ := 1024 * mib
abbrev tib : ℕ := 1024 * gib

abbrev minBlockSize : ℕ := 1024
abbrev maxBlockSize : ℕ := 4096
abbrev maxLabelBytes : ℕ := 12
abbrev minDeviceBytes : ℕ := 300 * mib

abbrev sector : ℕ := 512
abbrev inodeSize : ℕ := 512
abbrev inodesPerChunk : ℕ := 64
abbrev inodeClusterBytes : ℕ := 16384
abbrev rootBlocks : ℕ := 5
abbrev agflFill : ℕ := 4
abbrev logMinBytes : ℕ := 64 * mib
abbrev logMaxBytes : ℕ := 2 * gib - 1
abbrev logRatio : ℕ := 2048
abbrev agMinBytes : ℕ := 16 * mib
abbrev agMaxBytes : ℕ := tib

/-! ## What the caller chooses -/

structure Options where
  blockSize : ℕ
  agcount : Option ℕ
  label : Option String
  uuid : Option (List UInt8)
  agcount_lt : ∀ n, agcount = some n → n < 2 ^ 32
  uuid_length : ∀ u, uuid = some u → u.length = 16

/-- Where everything goes. -/
structure Plan where
  sb : WholeSuperblock
  lengths : List ℕ
  logAg : ℕ
  logAgbno : ℕ
  chunkAgbno : ℕ

namespace Plan

variable (p : Plan)

def headerBlocks : ℕ :=
  divCeil (4 * sector) p.sb.blocksize

def chunkBlocks : ℕ :=
  inodesPerChunk * inodeSize / p.sb.blocksize

def length (ag : ℕ) : Except Error ℕ :=
  orElse p.lengths[ag]? (.panicked s!"index out of bounds: the len is {p.lengths.length} but the index is {ag}")

def agflStart (ag : ℕ) : Except Error ℕ := do
  let afterRoots ← fit 32 (p.headerBlocks + rootBlocks)
  if ag = p.logAg then fit 32 (afterRoots + p.sb.logblocks) else return afterRoots

/-- The free extents of the first group, on either side of its inode chunk. -/
def aroundChunk (start end_ chunkEnd : ℕ) : List (ℕ × ℕ) :=
  (if start < p.chunkAgbno then [(start, p.chunkAgbno - start)] else []) ++
    if chunkEnd < end_ then [(chunkEnd, end_ - chunkEnd)] else []

def freeExtents (ag : ℕ) : Except Error (List (ℕ × ℕ)) := do
  let agfl ← p.agflStart ag
  let start ← fit 32 (agfl + agflFill)
  let end_ ← p.length ag
  if ag = 0 then
    let chunkEnd ← fit 32 (p.chunkAgbno + p.chunkBlocks)
    return p.aroundChunk start end_ chunkEnd
  else
    let rest ← less end_ start
    return [(start, rest)]

def freeBlocks (ag : ℕ) : Except Error ℕ := do
  let free ← p.freeExtents ag
  fit 32 (free.map Prod.snd).sum

/-- The blocks of one group that count as free: the free list's are the allocator's. -/
def countedFree (ag : ℕ) : Except Error ℕ := do
  let free ← p.freeBlocks ag
  fit 32 (free + agflFill)

def daddr (ag agbno : ℕ) : ℕ :=
  (ag * p.sb.agblocks + agbno) * (p.sb.blocksize / sector)

def offset (ag agbno : ℕ) : ℕ :=
  p.daddr ag agbno * sector

end Plan

/-! ## The plan -/

def imaxPct (bytes : ℕ) : ℕ :=
  if bytes < tib then 25 else if bytes < 50 * tib then 5 else 1

def checkLabel : Option String → Except Error Unit
  | some label =>
    ensure (label.utf8ByteSize ≤ maxLabelBytes)
      (.invalidGeometry s!"label {label.quote} is {label.utf8ByteSize} bytes; an XFS label holds {maxLabelBytes}")
  | none => .ok ()

-- four groups up to 4 TiB, above that groups of the largest size
def wantedAgcount (opts : Options) (dblocks agMax : ℕ) : Except Error ℕ :=
  match opts.agcount with
  | some 0 => .error (.invalidGeometry "agcount=0: a filesystem has at least one allocation group")
  | some n => .ok n
  | none => do
    let bytes ← fit 64 (dblocks * opts.blockSize)
    return if 4 * tib ≤ bytes then divCeil dblocks agMax else 4

/-- How many groups there are, their length and the length of the last. -/
def groups (opts : Options) (dblocks : ℕ) : Except Error (ℕ × ℕ × ℕ) := do
  let agMin := agMinBytes / opts.blockSize
  let agMax := agMaxBytes / opts.blockSize
  let wanted ← wantedAgcount opts dblocks agMax
  let agblocks := divCeil dblocks wanted
  ensure (agblocks ≤ agMax)
    (.invalidGeometry s!"agcount={wanted} makes groups of {agblocks} blocks; the largest is {agMax}")
  ensure (agMin ≤ agblocks)
    (.invalidGeometry s!"agcount={wanted} makes groups of {agblocks} blocks; the smallest is {agMin}")
  let agcount := divCeil dblocks agblocks
  let others ← less agcount 1
  let before ← fit 64 (others * agblocks)
  let last ← less dblocks before
  ensure (agMin ≤ last)
    (.invalidGeometry s!"the last allocation group would be {last} blocks; the smallest is {agMin}. Choose an agcount that divides the device more evenly")
  ensure (agcount < 2 ^ 32) (.invalidGeometry s!"{agcount} allocation groups")
  return (agcount, agblocks, last)

-- one block for 2048 bytes of filesystem, between 64 MiB and what the kernel accepts
def logBlocks (bytes blockSize : ℕ) : ℕ :=
  min (max (bytes / logRatio) logMinBytes) logMaxBytes / blockSize

def labelBytes : Option String → List UInt8
  | some label => label.toUTF8.data.toList
  | none => []

/-- The superblock, all but the count of free blocks. -/
def planSuperblock (opts : Options) (uuid : List UInt8)
    (dblocks agcount agblocks logblocks logAg logAgbno chunkAgbno : ℕ) : WholeSuperblock :=
  let bs := opts.blockSize
  let agblklog := (agblocks - 1).size
  let inopblog := Nat.log2 (bs / inodeSize)
  let rootino := chunkAgbno * 2 ^ inopblog
  { blocksize := bs
    dblocks := dblocks
    rblocks := 0
    uuid := uuid
    logstart := logAg * 2 ^ agblklog ||| logAgbno
    rootino := rootino
    agblocks := agblocks
    agcount := agcount
    logblocks := logblocks
    versionnum := 0xb4a5
    sectsize := sector
    inodesize := inodeSize
    inopblock := bs / inodeSize
    blocklog := Nat.log2 bs
    sectlog := 9
    inodelog := 9
    inopblog := inopblog
    agblklog := agblklog
    inprogress := 0
    icount := inodesPerChunk
    ifree := inodesPerChunk - 3
    fdblocks := 0
    inoalignmt := inodesPerChunk * inodeSize / bs
    dirblklog := Nat.log2 (max bs 4096 / bs)
    logsunit := 1
    features2 := 0x18a
    featuresCompat := 0
    featuresRoCompat := 0xd
    featuresIncompat := 0xb
    featuresLogIncompat := 0
    spinoAlign := inodeClusterBytes / bs
    metaUuid := uuid
    fname := labelBytes opts.label
    rextents := 0
    rbmino := rootino + 1
    rsumino := rootino + 2
    rextsize := max (4096 / bs) 1
    rbmblocks := 0
    rextslog := 0
    imaxPct := imaxPct (dblocks * bs)
    frextents := 0
    uquotino := 0
    gquotino := 0
    qflags := 0
    flags := 0
    sharedVn := 0
    unit := 0
    width := 0
    logsectlog := 0
    logsectsize := 0
    badFeatures2 := 0x18a
    pquotino := 0
    lsn := 0 }

/-- Where the log and the first inode chunk go, and whether both fit. -/
def place (opts : Options) (uuid : List UInt8) (dblocks agcount agblocks last : ℕ) :
    Except Error Plan := do
  let bs := opts.blockSize
  let lengths := (List.replicate agcount agblocks).set (agcount - 1) last
  let bytes ← fit 64 (dblocks * bs)
  let logblocks ← fit 32 (logBlocks bytes bs)
  let logAg := agcount / 2
  let headerBlocks := divCeil (4 * sector) bs
  let logAgbno ← fit 32 (headerBlocks + rootBlocks)
  let logEnd ← fit 32 (logAgbno + logblocks + agflFill)
  let room ← orElse lengths[logAg]? (.panicked "index out of bounds")
  ensure (logEnd < room)
    (.invalidGeometry s!"a {logblocks}-block log does not fit in an allocation group of {room} blocks. Ask for fewer, larger groups (-d agcount=)")
  let inoalignmt := inodesPerChunk * inodeSize / bs
  -- the first inode chunk, where xfs_repair looks for it
  let first ← fit 32 (headerBlocks + rootBlocks + agflFill + if logAg = 0 then logblocks else 0)
  let chunkAgbno ← fit 32 (divCeil first inoalignmt * inoalignmt)
  return {
    sb := planSuperblock opts uuid dblocks agcount agblocks logblocks logAg logAgbno chunkAgbno
    lengths := lengths
    logAg := logAg
    logAgbno := logAgbno
    chunkAgbno := chunkAgbno }

def Plan.count (p : Plan) : Except Error Plan := do
  let chunkEnd ← fit 32 (p.chunkAgbno + p.chunkBlocks)
  let first ← p.length 0
  ensure (chunkEnd ≤ first)
    (.invalidGeometry "the first inode chunk does not fit in allocation group 0")
  let free ← (List.range p.sb.agcount).mapM p.countedFree
  let fdblocks ← fit 64 free.sum
  return { p with sb := { p.sb with fdblocks := fdblocks } }

/-- The plan for a device, with the identifier a caller who chose none is given. -/
def plan (deviceBytes : ℕ) (opts : Options) (random : List UInt8) : Except Error Plan := do
  let bs := opts.blockSize
  ensure (minBlockSize ≤ bs ∧ bs ≤ maxBlockSize ∧ bs.isPowerOfTwo)
    (.invalidGeometry s!"block size {bs} is not one this formatter makes: a power of two from {minBlockSize} to {maxBlockSize}")
  checkLabel opts.label
  ensure (minDeviceBytes ≤ deviceBytes)
    (.invalidGeometry s!"the device is too small: {deviceBytes} bytes, and an XFS filesystem needs at least {minDeviceBytes} ({minDeviceBytes / mib} MiB)")
  let dblocks := deviceBytes / bs
  let (agcount, agblocks, last) ← groups opts dblocks
  let laid ← place opts (opts.uuid.getD random) dblocks agcount agblocks last
  laid.count

end FsXfs.Mkfs
