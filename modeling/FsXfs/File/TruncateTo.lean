import FsXfs.File.Volume

/-!
# Truncating to any length

`truncate_to.rs`: a file made shorter or longer through the log. Extents past the new end are freed,
one that straddles it is cut, a block-map tree whose remaining extents fit the inode is freed with
them, and the tail of the block the smaller size ends in is zeroed before the record.
-/

namespace FsXfs.File

set_option autoImplicit false

def stays (keepBlocks : ℕ) (e : Extent) : Option Extent :=
  if e.endOffset ≤ keepBlocks then some e
  else if keepBlocks ≤ e.startoff then none
  else some { e with blockcount := keepBlocks - e.startoff }

def runsOf : List ℕ → List (ℕ × ℕ)
  | [] => []
  | b :: rest =>
    match runsOf rest with
    | [] => [(b, 1)]
    | (start, len) :: runs =>
      if start = b + 1 then (b, len + 1) :: runs else (b, 1) :: (start, len) :: runs

structure Truncated where
  extents : List Extent
  size : ℕ
  nblocks : ℕ
  format : Format
  given : List (ℕ × Group.FreeExtent)
  writes : List DataWrite

structure Freeing where
  groups : Groups
  given : List (ℕ × Group.FreeExtent)
  freed : ℕ

namespace Volume

section

variable (v : Volume) (ino : ℕ)

def countU32 (n : ℕ) : Except Error Unit :=
  ensure (n < 2 ^ 32) (.unsupportedFeature s!"inode {ino} has an extent of {n} blocks")

def letGo (s : Freeing) (agno : ℕ) (group : Group.GroupAlloc) (start len : ℕ) :
    Except Error Freeing := do
  let (group, ranges) ← group.releaseShared start len
  let group ← ranges.foldlM Group.GroupAlloc.giveBack group
  pure ⟨s.groups.put agno group, s.given ++ ranges.map fun range => (agno, range), s.freed + len⟩

def freeExtent (s : Freeing) (whole : Extent) (stay : Option Extent) : Except Error Freeing := do
  let (agno, agblock) := v.sb.splitFsblock whole.startblock
  let group ← v.groupFor s.groups agno
  countU32 ino whole.blockcount
  let group ← group.forgetRmap ⟨agblock, whole.blockcount, owner ino, rmapOffset whole⟩
  let group ← match stay with
    | none => pure group
    | some e => do
      countU32 ino e.blockcount
      group.putRmap ⟨agblock, e.blockcount, owner ino, rmapOffset e⟩
  let kept := stay.elim 0 Extent.blockcount
  letGo s agno group ((agblock + kept) % 2 ^ 32) (whole.blockcount - kept)

def freeExtents (freeing : List (Extent × Option Extent)) (s : Freeing) : Except Error Freeing :=
  freeing.foldlM (fun s p => v.freeExtent ino s p.1 p.2) s

def freeTree (mapBlocks : List ℕ) (s : Freeing) : Except Error Freeing :=
  let places := mapBlocks.map v.sb.splitFsblock
  let agnos := (places.map Prod.fst).dedup.insertionSort (· ≤ ·)
  agnos.foldlM (fun s agno => do
    let blocks := ((places.filter fun p => p.1 = agno).map Prod.snd).dedup.insertionSort (· ≤ ·)
    (runsOf blocks).foldlM (fun s run => do
      let group ← v.groupFor s.groups agno
      let group ← group.forgetRmap ⟨run.1, run.2, owner ino, 2 ^ 62⟩
      letGo s agno group run.1 run.2) s) s

def truncateExtents (file : Inode) : Except Error (List Extent × List ℕ) :=
  if file.format = .btree then v.walkWithBlocks ino file
  else do
    let extents ← v.dataExtents ino file
    pure (extents, [])

def tailOf (extents : List Extent) (edge : ℕ) : Option (ℕ × ℕ) :=
  let bs := v.sb.blocksize
  if edge % bs ≠ 0 then
    (extents.find? fun e => !e.unwritten && e.contains (edge / bs)).map fun e =>
      (e.startblock + (edge / bs - e.startoff), edge % bs)
  else none

def freeingOf (newSize size : ℕ) (extents : List Extent) : List (Extent × Option Extent) :=
  let keepBlocks := divCeil newSize v.sb.blocksize
  if size ≤ newSize then []
  else (extents.filter fun e => decide (keepBlocks < e.endOffset)).map fun e => (e, stays keepBlocks e)

def keptOf (newSize size : ℕ) (extents : List Extent) : List Extent :=
  if size ≤ newSize then extents
  else extents.filterMap (stays (divCeil newSize v.sb.blocksize))

def chargeFreed (freed : ℕ) : Except Error Unit :=
  if freed = 0 then .ok () else v.charge [(ino, -(freed : ℤ))]

def truncateTo (newSize : ℕ) : Except Error (Option Truncated) := do
  v.writable
  ensure v.sb.isV5
    (.unsupportedFeature "truncating writes v5 metadata; a v4 filesystem is not supported")
  let file ← v.inode ino
  ensure file.regular .notAFile
  ensure (file.realtime = false)
    (.unsupportedFeature s!"inode {ino} keeps its data on the real-time device")
  ensure (file.format ≠ .local_)
    (.unsupportedFeature s!"inode {ino} stores its data inside the inode")
  if newSize = file.size then pure none
  else do
    let (extents, mapBlocks) ← v.truncateExtents ino file
    let edge := min newSize file.size
    let zeroTail := v.tailOf extents edge
    ensure (zeroTail.isNone ∨ file.shared = false)
      (.unsupportedFeature s!"inode {ino} has reflinked extents, and zeroing the part of its last block past {edge} in place could change what another file reads")
    let kept := v.keptOf newSize file.size extents
    let freeing := v.freeingOf newSize file.size extents
    ensure (freeing = [] ∨ kept.length ≤ file.forkLen / 16)
      (.unsupportedFeature s!"inode {ino} keeps {kept.length} extents, more than its fork lists, so its extent B+tree would have to be rewritten rather than freed")
    let dropTree := decide (freeing ≠ []) && decide (file.format = .btree)
    let s ← v.freeExtents ino freeing ⟨[], [], 0⟩
    let s ← v.freeTree ino (if dropTree then mapBlocks else []) s
    v.intoItems (s.groups.insertionSort fun a b => a.1 ≤ b.1)
    v.chargeFreed ino s.freed
    checkRecords kept
    let _ ← v.sb.inodeOffset ino
    let writes := zeroTail.toList.map fun tail =>
      (wrap64 (v.sb.fsblockOffset tail.1 + tail.2), List.replicate (v.sb.blocksize - tail.2) 0)
    pure (some ⟨kept, newSize, wrap64 (file.nblocks + 2 ^ 64 - s.freed),
      if dropTree then .extents else file.format, s.given, writes⟩)

end

end Volume

end FsXfs.File
