import FsXfs.Group.Trees

/-!
# Editing a group

`group_write.rs`, `GroupAlloc`: one group's free space, reverse map and reference counts, read once,
edited in memory, and turned into the buffer items that record the change.
-/

namespace FsXfs.Group

open Bytes Quota Log

set_option autoImplicit false

/-- A device as the editor sees it: reads that return as many bytes as were asked for. -/
structure BlockRead where
  readAt : ℕ → ℕ → Except Error (List UInt8)
  length_eq : ∀ {offset len : ℕ} {bytes : List UInt8},
    readAt offset len = .ok bytes → bytes.length = len

structure GroupAlloc where
  agno : ℕ
  agfRaw : List UInt8
  before : ℕ → Option (List UInt8)
  bnoBlocks : List ℕ
  cntBlocks : List ℕ
  byBlock : List FreeExtent
  settled : List FreeExtent
  rmap : Option (List Rmap × List ℕ)
  refcount : Option (List Refcount × List ℕ)
  agfl : Agfl
  agflRaw : List UInt8
  took : Bool

/-! ## Opening a group -/

section

variable (crc32c : List UInt8 → ℕ) (sb : Superblock) (device : BlockRead) (agno : ℕ)

def agStart : ℕ :=
  agno * sb.agblocks * sb.blocksize

def readSector (index : ℕ) : Except Error (List UInt8) :=
  device.readAt (agStart sb agno + index * sb.sectsize) sb.sectsize

def readBlock (agblock : ℕ) : Except Error (List UInt8) :=
  device.readAt (agStart sb agno + agblock * sb.blocksize) sb.blocksize

def notFreeSpace (length previousEnd : ℕ) (e : FreeExtent) : Option String :=
  if e.blockcount = 0 then some "is empty"
  else if e.startblock ≤ lastHeaderBlock sb then some "starts on the group's headers"
  else if length < e.end_ then some "runs past the end of the group"
  else if e.startblock < previousEnd then some "starts before the run before it ends"
  else none

def checkRunsFrom (length : ℕ) : ℕ → ℕ → List FreeExtent → Except Error Unit
  | _, _, [] => .ok ()
  | i, previousEnd, e :: rest =>
    match notFreeSpace sb length previousEnd e with
    | some why => .error (.badSuperblock s!"AG {agno}: free-space record {i} ({e.blockcount} blocks at {e.startblock}) {why}, so it does not describe free space in a group of {length} blocks")
    | none => checkRunsFrom length (i + 1) e.end_ rest

def checkRuns (length : ℕ) (records : List FreeExtent) : Except Error Unit :=
  checkRunsFrom sb agno length 0 0 records

def extentLe (a b : FreeExtent) : Bool :=
  decide (a.startblock < b.startblock) ||
    (decide (a.startblock = b.startblock) && decide (a.blockcount ≤ b.blockcount))

def differs (byBlock byLength : List FreeExtent) : String :=
  match (byBlock.zip byLength).find? fun pair => decide (pair.1 ≠ pair.2) with
  | none => s!"the by-block tree has {byBlock.length} records and the by-length tree {byLength.length}"
  | some (a, b) => s!"the by-block tree has {a.blockcount} blocks at {a.startblock} where the by-length tree has {b.blockcount} blocks at {b.startblock}"

def sameFreeSpace (byBlock byLength : List FreeExtent) : Except Error Unit :=
  let byBlock := byBlock.insertionSort fun a b => extentLe a b
  let byLength := byLength.insertionSort fun a b => extentLe a b
  ensure (byBlock = byLength)
    (.badSuperblock s!"AG {agno}: the two free-space trees describe different free space: {differs byBlock byLength}")

def openRmap (agf : Agf) : Except Error (Option (List Rmap × List ℕ)) :=
  if sb.hasRmapbt ∧ 0 < agf.level rmap then do
    let tree ← walkBlocks crc32c sb agno rmapCodec (readBlock sb device agno) (agf.root rmap)
      (agf.level rmap)
    pure (some tree)
  else pure none

def openRefcount (agf : Agf) : Except Error (Option (List Refcount × List ℕ)) :=
  if sb.hasReflink ∧ 0 < agf.refcountLevel then do
    let tree ← walkBlocks crc32c sb agno refcountCodec (readBlock sb device agno) agf.refcountRoot
      agf.refcountLevel
    checkCounts agno agf.length (lastHeaderBlock sb) tree.1
    pure (some tree)
  else pure none

def beforeImages (blocks : List ℕ) : Except Error (ℕ → Option (List UInt8)) := do
  let images ← blocks.mapM fun b => do
    let raw ← readBlock sb device agno b
    pure (b, raw)
  pure fun b => images.lookup b

def treeBlocks {T : Type} (tree : Option (List T × List ℕ)) : List ℕ :=
  tree.elim [] Prod.snd

def openGroup : Except Error GroupAlloc := do
  let agfRaw ← readSector sb device agno 1
  let agf ← Agf.parse crc32c sb agfRaw agno
  let agflRaw ← readSector sb device agno 3
  let agfl ← Agfl.parse crc32c sb agflRaw agf agno
  let (byBlock, bnoBlocks) ← walkBlocks crc32c sb agno (freeCodec .byBlock)
    (readBlock sb device agno) (agf.root bno) (agf.level bno)
  checkRuns sb agno agf.length byBlock
  let (byLength, cntBlocks) ← walkBlocks crc32c sb agno (freeCodec .byCount)
    (readBlock sb device agno) (agf.root cnt) (agf.level cnt)
  sameFreeSpace agno byBlock byLength
  let rmap ← openRmap crc32c sb device agno agf
  let refcount ← openRefcount crc32c sb device agno agf
  let before ← beforeImages sb device agno
    (bnoBlocks ++ cntBlocks ++ treeBlocks rmap ++ treeBlocks refcount)
  pure ⟨agno, agfRaw, before, bnoBlocks, cntBlocks, byBlock, byBlock, rmap, refcount, agfl, agflRaw,
    false⟩

/-! ## The edits -/

def volumeFreeBlocks : Except Error ℕ :=
  (List.range sb.agcount).foldlM (fun free agno => do
    let raw ← readSector sb device agno 1
    let agf ← Agf.parse crc32c sb raw agno
    pure (free + agf.freeblks)) 0

end

def firstCommonRun (want : ℕ) : List FreeExtent → List FreeExtent → Option ℕ
  | [], _ => none
  | _ :: _, [] => none
  | x :: a, y :: b =>
    let start := max x.startblock y.startblock
    if start + want ≤ min x.end_ y.end_ then some start
    else if x.end_ ≤ y.end_ then firstCommonRun want a (y :: b)
    else firstCommonRun want (x :: a) b
  termination_by a b => a.length + b.length

/-- A run of a group's blocks: block numbers, all of them, that fit a `u32`. -/
structure GroupRun where
  startblock : ℕ
  blockcount : ℕ
  fits : startblock + blockcount < 2 ^ 32

def GroupRun.extent (run : GroupRun) : FreeExtent :=
  ⟨run.startblock, run.blockcount⟩

inductive Edit where
  | take (want : ℕ) (owner : ℤ) (offset : ℕ)
  | takeAligned (want align : ℕ) (owner : ℤ) (offset : ℕ)
  | takeUpTo (want : ℕ) (owner : ℤ) (offset : ℕ)
  | takeSettled (want : ℕ) (owner : ℤ) (offset : ℕ)
  | giveBack (run : GroupRun)
  | forgetRmap (record : Rmap)
  | rememberRmap (record : Rmap)
  | rememberMovedRmap (record : Rmap)
  | releaseShared (startblock blockcount : ℕ)

namespace GroupAlloc

abbrev Taken := GroupAlloc × FreeExtent

def putRmap (ed : GroupAlloc) (record : Rmap) : Except Error GroupAlloc :=
  match ed.rmap with
  | none => .ok ed
  | some (records, blocks) => do
    let records ← rmapInsert records record
    pure { ed with rmap := some (records, blocks), took := true }

def takeAt (ed : GroupAlloc) (start want : ℕ) (owner : ℤ) (offset : ℕ) : Except Error Taken := do
  let free ← allocExtent ed.byBlock ⟨start, want⟩
  let ed ← putRmap { ed with byBlock := free } ⟨start, want, owner, offset⟩
  pure ({ ed with took := true }, ⟨start, want⟩)

section

variable (crc32c : List UInt8 → ℕ) (sb : Superblock) (device : BlockRead)

def alignedStart (align want : ℕ) (run : FreeExtent) : Option ℕ :=
  let start := divCeil run.startblock align * align
  if start + want ≤ run.end_ then some start else none

def notTaken (ed : GroupAlloc) (want align : ℕ) : Except Error Taken := do
  let free ← volumeFreeBlocks crc32c sb device
  if free < want then
    .error (.noSpace s!"{want} blocks are wanted in allocation group {ed.agno}, and the whole volume has {free} free")
  else
    .error (.unsupportedFeature s!"allocation group {ed.agno} has no single free run of {want} blocks starting on a multiple of {align} — its longest run is {longest ed.byBlock}, and splitting across extents is not implemented")

def takeAligned (ed : GroupAlloc) (want align : ℕ) (owner : ℤ) (offset : ℕ) : Except Error Taken :=
  match ed.byBlock.findSome? (alignedStart (max align 1) want) with
  | none => notTaken crc32c sb device ed want (max align 1)
  | some start => ed.takeAt start want owner offset

def upTo (ed : GroupAlloc) (want : ℕ) : ℕ :=
  if ed.byBlock.any fun run => decide (want ≤ run.blockcount) then want
  else min (longest ed.byBlock) want

def takeUpTo (ed : GroupAlloc) (want : ℕ) (owner : ℤ) (offset : ℕ) :
    Except Error (GroupAlloc × Option FreeExtent) :=
  if ed.upTo want = 0 then .ok (ed, none)
  else do
    let (ed, extent) ← takeAligned crc32c sb device ed (ed.upTo want) 1 owner offset
    pure (ed, some extent)

def takeSettled (ed : GroupAlloc) (want : ℕ) (owner : ℤ) (offset : ℕ) : Except Error Taken :=
  match firstCommonRun want ed.settled ed.byBlock with
  | none =>
    .error (.unsupportedFeature s!"allocation group {ed.agno} has no single free run of {want} blocks that was free before this record began — its longest run is {longest ed.byBlock}, and blocks the record gave back are not reused before it commits")
  | some start => ed.takeAt start want owner offset

end

def giveBack (ed : GroupAlloc) (extent : FreeExtent) : Except Error GroupAlloc := do
  let free ← freeExtent ed.byBlock extent
  pure { ed with byBlock := free, took := true }

def forgetRmap (ed : GroupAlloc) (record : Rmap) : Except Error GroupAlloc :=
  match ed.rmap with
  | none => .ok ed
  | some (records, blocks) => do
    let records ← rmapRemove records record
    pure { ed with rmap := some (records, blocks), took := true }

def rememberMovedRmap (ed : GroupAlloc) (record : Rmap) : Except Error GroupAlloc :=
  if ed.refcount.isNone then ed.putRmap record
  else
    match ed.rmap with
    | none => .ok ed
    | some (records, blocks) => do
      let records ← rmapInsertShared records record
      pure { ed with rmap := some (records, blocks), took := true }

def releaseShared (ed : GroupAlloc) (startblock blockcount : ℕ) :
    Except Error (GroupAlloc × List FreeExtent) :=
  match ed.refcount with
  | none => .ok (ed, [⟨startblock, blockcount⟩])
  | some (records, blocks) => do
    let (ranges, records') ← release records startblock blockcount
    pure ({ ed with refcount := some (records', blocks), took := ed.took || decide (records' ≠ records) },
      ranges)

end GroupAlloc

section

variable (crc32c : List UInt8 → ℕ) (sb : Superblock) (device : BlockRead)

def edit (ed : GroupAlloc) : Edit → Except Error (GroupAlloc × ℤ)
  | .take want owner offset => do
    let (ed, extent) ← ed.takeAligned crc32c sb device want 1 owner offset
    pure (ed, -extent.blockcount)
  | .takeAligned want align owner offset => do
    let (ed, extent) ← ed.takeAligned crc32c sb device want align owner offset
    pure (ed, -extent.blockcount)
  | .takeUpTo want owner offset => do
    let (ed, extent) ← ed.takeUpTo crc32c sb device want owner offset
    pure (ed, -(extent.elim 0 FreeExtent.blockcount : ℕ))
  | .takeSettled want owner offset => do
    let (ed, extent) ← ed.takeSettled want owner offset
    pure (ed, -extent.blockcount)
  | .giveBack run => do
    let ed ← ed.giveBack run.extent
    pure (ed, run.blockcount)
  | .forgetRmap record => do
    let ed ← ed.forgetRmap record
    pure (ed, 0)
  | .rememberRmap record => do
    let ed ← ed.putRmap record
    pure (ed, 0)
  | .rememberMovedRmap record => do
    let ed ← ed.rememberMovedRmap record
    pure (ed, 0)
  | .releaseShared startblock blockcount => do
    let (ed, _) ← ed.releaseShared startblock blockcount
    pure (ed, 0)

def run : GroupAlloc → List Edit → Except Error (GroupAlloc × ℤ)
  | ed, [] => .ok (ed, 0)
  | ed, e :: edits => do
    let (ed, moved) ← edit crc32c sb device ed e
    let (ed, rest) ← run ed edits
    pure (ed, moved + rest)

end

/-! ## The items -/

section

variable (crc32c : List UInt8 → ℕ) (sb : Superblock) (device : BlockRead)

namespace GroupAlloc

def needed (ed : GroupAlloc) : ℕ :=
  let level := fun tree => beAt ed.agfRaw (agfLevels + 4 * tree) 4
  min (2 * level bno + 2 * level cnt + if ed.rmap.isSome then 2 * level Group.rmap else 0)
    (agflCapacity sb)

def noneToRefill (agno : ℕ) : Error :=
  .unsupportedFeature s!"allocation group {agno} has no free space left to refill its free list"

def refillOne (ed : GroupAlloc) : Except Error GroupAlloc := do
  let first ← orElse ed.byBlock.head? (noneToRefill ed.agno)
  let free ← allocExtent ed.byBlock ⟨first.startblock, 1⟩
  let agfl ← ed.agfl.put sb ed.agno first.startblock
  putRmap { ed with byBlock := free, agfl := agfl } ⟨first.startblock, 1, Rmap.ownAg, 0⟩

def refillBy : ℕ → GroupAlloc → Except Error GroupAlloc
  | 0, ed => .ok ed
  | n + 1, ed => do
    let ed ← ed.refillOne sb
    refillBy n ed

def refillFreeList (ed : GroupAlloc) : Except Error GroupAlloc :=
  refillBy sb (ed.needed sb - ed.agfl.count) ed

def byCountLe (a b : FreeExtent) : Bool :=
  decide (a.blockcount < b.blockcount) ||
    (decide (a.blockcount = b.blockcount) && decide (a.startblock ≤ b.startblock))

def byCount (ed : GroupAlloc) : List FreeExtent :=
  ed.byBlock.insertionSort fun a b => byCountLe a b

def relayTree {T : Type} (codec : Codec T) (ed : GroupAlloc) (agfl : Agfl)
    (tree : Option (List T × List ℕ)) : Except Error (List ℕ × Agfl × List BufferItem) :=
  match tree with
  | none => .ok ([], agfl, [])
  | some (records, held) =>
    relay sb ed.agno crc32c codec (readBlock sb device ed.agno) ed.before records held agfl

end GroupAlloc

structure Relaid where
  bnoBlocks : List ℕ
  cntBlocks : List ℕ
  rmapBlocks : List ℕ
  refcountBlocks : List ℕ
  agfl : Agfl
  items : List BufferItem

def relayAll (ed : GroupAlloc) : Except Error Relaid := do
  let (bnoBlocks, agfl, bnoItems) ← ed.relayTree crc32c sb device (freeCodec .byBlock) ed.agfl
    (some (ed.byBlock, ed.bnoBlocks))
  let (cntBlocks, agfl, cntItems) ← ed.relayTree crc32c sb device (freeCodec .byCount) agfl
    (some (ed.byCount, ed.cntBlocks))
  let (rmapBlocks, agfl, rmapItems) ← ed.relayTree crc32c sb device rmapCodec agfl ed.rmap
  let (refcountBlocks, agfl, refcountItems) ← ed.relayTree crc32c sb device refcountCodec agfl
    ed.refcount
  pure ⟨bnoBlocks, cntBlocks, rmapBlocks, refcountBlocks, agfl,
    bnoItems ++ cntItems ++ rmapItems ++ refcountItems⟩

def levelOf (shape : Shape) (blocks : List ℕ) (records : ℕ) : Except Error ℕ := do
  let levels ← plan sb shape records
  ensure (levels.sum = blocks.length)
    (.internal s!"a re-derived plan covers {levels.sum} blocks but the tree was laid out over {blocks.length}")
  pure levels.length

def rootOf (blocks : List ℕ) : Except Error ℕ :=
  orElse blocks.getLast? (.panicked "a tree has at least one block")

def fitsU32 (n : ℕ) (e : Error) : Except Error ℕ := do
  ensure (n < 2 ^ 32) e
  pure n

def putWords (writes : List (ℕ × ℕ)) (buf : List UInt8) : List UInt8 :=
  writes.foldl (fun buf write => patch buf write.1 (beBytes 4 write.2)) buf

def rmapFields (ed : GroupAlloc) (relaid : Relaid) : Except Error (List (ℕ × ℕ)) :=
  if relaid.rmapBlocks = [] then .ok []
  else do
    let root ← rootOf relaid.rmapBlocks
    let level ← levelOf sb rmapShape relaid.rmapBlocks (ed.rmap.elim 0 fun tree => tree.1.length)
    pure [(agfRoots + 4 * rmap, root), (agfLevels + 4 * rmap, level),
      (agfRmapBlocks, relaid.rmapBlocks.length)]

def refcountFields (ed : GroupAlloc) (relaid : Relaid) : Except Error (List (ℕ × ℕ)) :=
  if relaid.refcountBlocks = [] then .ok []
  else do
    let root ← rootOf relaid.refcountBlocks
    let level ← levelOf sb refcountShape relaid.refcountBlocks
      (ed.refcount.elim 0 fun tree => tree.1.length)
    pure [(agfRefcountRoot, root), (agfRefcountLevel, level),
      (agfRefcountBlocks, relaid.refcountBlocks.length)]

def Relaid.btreeblks (relaid : Relaid) : ℕ :=
  (relaid.bnoBlocks.length - 1) + (relaid.cntBlocks.length - 1) + (relaid.rmapBlocks.length - 1)

def headerFields (ed : GroupAlloc) (relaid : Relaid) : Except Error (List (ℕ × ℕ)) := do
  let freeblks ← fitsU32 (totalFree ed.byBlock)
    (.corruptLog s!"allocation group {ed.agno} has more free blocks than fit")
  let bnoLevel ← levelOf sb (Order.shape .byBlock) relaid.bnoBlocks ed.byBlock.length
  let cntLevel ← levelOf sb (Order.shape .byCount) relaid.cntBlocks ed.byBlock.length
  let bnoRoot ← rootOf relaid.bnoBlocks
  let cntRoot ← rootOf relaid.cntBlocks
  let rmapWrites ← rmapFields sb ed relaid
  let refcountWrites ← refcountFields sb ed relaid
  let btreeblks ← fitsU32 relaid.btreeblks
    (.corruptLog s!"allocation group {ed.agno}'s trees hold more blocks than fit")
  pure ([(agfFreeblks, freeblks), (agfLongest, longest ed.byBlock),
    (agfRoots + 4 * bno, bnoRoot), (agfRoots + 4 * cnt, cntRoot),
    (agfLevels + 4 * bno, bnoLevel), (agfLevels + 4 * cnt, cntLevel)] ++ rmapWrites ++
    refcountWrites ++ [(agfBtreeblks, btreeblks), (agfFlfirst, relaid.agfl.first),
    (agfFllast, relaid.agfl.last), (agfFlcount, relaid.agfl.count)])

def newHeader (ed : GroupAlloc) (relaid : Relaid) : Except Error (List UInt8) := do
  let fields ← headerFields sb ed relaid
  pure (putWords fields ed.agfRaw)

structure Finished where
  ed : GroupAlloc
  relaid : Relaid
  header : List UInt8
  items : List BufferItem

def listItems (ed : GroupAlloc) (after : List UInt8) : Except Error (List BufferItem) :=
  if after = ed.agflRaw then pure []
  else do
    let item ← changedChunks (agStart sb ed.agno / 512 + sb.sectsize * 3 / 512) ed.agflRaw after
      blftAgfl
    pure [item]

def finish (ed : GroupAlloc) : Except Error Finished := do
  let ed ← ed.refillFreeList sb
  let relaid ← relayAll crc32c sb device ed
  let header ← newHeader sb ed relaid
  let agfItem ← changedChunks (agStart sb ed.agno / 512 + sb.sectsize / 512) ed.agfRaw header blftAgf
  let rest ← listItems sb ed (relaid.agfl.after crc32c sb)
  pure ⟨ed, relaid, header, agfItem :: relaid.items ++ rest⟩

def intoItems (ed : GroupAlloc) : Except Error (List BufferItem) :=
  if ed.took then do
    let finished ← finish crc32c sb device ed
    pure finished.items
  else pure []

end

end FsXfs.Group
