import FsXfs.Log.Buffers
import FsXfs.Log.Dinode
import FsXfs.Overlay
import FsXfs.Quota

/-!
# Replaying items byte by byte

`log_recover.rs` over the items as records hold them: pass one counts the cancels of the replayed
range, pass two applies each item to the overlay, consuming a count at each cancel it passes. The
items a cancel withholds are buffers of its address and length and inodes of its cluster.
-/

namespace FsXfs.Log

open Bytes Quota Redo

set_option autoImplicit false

abbrev xfsLiInode : ℕ := 0x123b
abbrev xfsLiIcreate : ℕ := 0x123f
abbrev inodeLogFormatSize : ℕ := 56
abbrev icreateLogSize : ℕ := 28

def blftBtree : ℕ := 4
def blftAgf : ℕ := 5
def blftAgfl : ℕ := 6
def blftAgi : ℕ := 7
def blftDino : ℕ := 8
def blftSymlink : ℕ := 9
def blftDirBlock : ℕ := 10
def blftDirData : ℕ := 11
def blftDirFree : ℕ := 12
def blftDirLeaf1 : ℕ := 13
def blftDirLeafn : ℕ := 14
def blftDaNode : ℕ := 15
def blftAttrLeaf : ℕ := 16
def blftSb : ℕ := 18

/-! ## The fields of an item -/

namespace RawItem

def format (item : RawItem) : List UInt8 :=
  item.regions.headD []

-- `native_u16`, `native_u32` and `native_u64`: a field of the format, in the machine's byte order
def field (item : RawItem) (at_ width : ℕ) : ℕ :=
  leValue (slice item.format at_ width)

def kind (item : RawItem) : ℕ :=
  if item.format.length < 2 then 0 else item.field 0 2

def blfFlags (item : RawItem) : ℕ := item.field 4 2
def blfKey (item : RawItem) : ℕ × ℕ := (item.field 8 8, item.field 6 2)
def ilfKey (item : RawItem) : ℕ × ℕ := (item.field 40 8, item.field 48 4)

def isCancel (item : RawItem) : Bool :=
  decide (item.kind = xfsLiBuf) && decide (blfHeaderSize ≤ item.format.length) &&
    item.blfFlags.testBit 1

end RawItem

/-! ## Checksums -/

section

variable (crc32c : List UInt8 → ℕ)

def stampAt (at_ : ℕ) (buffer : List UInt8) : List UInt8 :=
  if buffer.length < at_ + 4 then buffer
  else patch buffer at_ (leBytes 4 (crc32cWithZeroedCrc crc32c buffer at_))

def stampInode (sb : Superblock) (inode : List UInt8) : List UInt8 :=
  if sb.isV5 then stampAt crc32c diCrc inode else inode

def btreeIsLongForm (buffer : List UInt8) : Bool :=
  decide (4 ≤ buffer.length) &&
    (decide (beValue (slice buffer 0 4) = xfsBmapCrcMagic) ||
      decide (beValue (slice buffer 0 4) = xfsBmapMagic))

def stampCluster (sb : Superblock) (buffer : List UInt8) : List UInt8 :=
  (List.range (buffer.length / max sb.inodesize 1)).foldl (fun buffer slot =>
    patch buffer (slot * sb.inodesize)
      (stampInode crc32c sb (slice buffer (slot * sb.inodesize) sb.inodesize))) buffer

-- where `stamp` finds the checksum of a buffer of a type it knows
def crcOffset (bufType : ℕ) (buffer : List UInt8) : Option ℕ :=
  if bufType = blftAgf then some 216
  else if bufType = blftAgi then some 312
  else if bufType = blftAgfl then some 32
  else if bufType = blftBtree then some (if btreeIsLongForm buffer then 64 else 52)
  else if bufType = blftDirBlock ∨ bufType = blftDirData ∨ bufType = blftDirFree then some 4
  else if bufType = blftDirLeaf1 ∨ bufType = blftDirLeafn ∨ bufType = blftDaNode ∨
      bufType = blftAttrLeaf then some 12
  else if bufType = blftSymlink then some 12
  else if bufType = blftSb then some 224
  else none

def stamp (sb : Superblock) (bufType : ℕ) (buffer : List UInt8) : List UInt8 :=
  if !sb.isV5 then buffer
  else if bufType = blftDino then stampCluster crc32c sb buffer
  else
    match crcOffset bufType buffer with
    | some at_ => stampAt crc32c at_ buffer
    | none => buffer

/-! ## What an item restores -/

def copyRuns (runs : List (ℕ × ℕ)) (regions : List (List UInt8)) (buffer : List UInt8) :
    List UInt8 :=
  (runs.zip regions).foldl (fun buffer (run, region) =>
    patch buffer (run.1 * blfChunk)
      (region.take (min (run.2 * blfChunk) (buffer.length - run.1 * blfChunk)))) buffer

-- `apply_inode_buffer`: of an inode cluster only the unlinked pointers are taken
def copyUnlinked (inodesize : ℕ) (runs : List (ℕ × ℕ)) (regions : List (List UInt8))
    (buffer : List UInt8) : List UInt8 :=
  if inodesize = 0 then buffer
  else
    (List.range (buffer.length / inodesize)).foldl (fun buffer slot =>
      let field := slot * inodesize + diNextUnlinked
      match runs.zipIdx.find? fun (run, _) =>
          decide (run.1 ≤ field / blfChunk) && decide (field / blfChunk < run.1 + run.2) with
      | none => buffer
      | some (run, index) =>
        match regions[index]? with
        | none => buffer
        | some region =>
          let within := field - run.1 * blfChunk
          if region.length < within + 4 ∨ buffer.length < field + 4 then buffer
          else patch buffer field (slice region within 4)) buffer

def mapOf (item : RawItem) (mapSize : ℕ) : List ℕ :=
  (List.range mapSize).map fun i => item.field (blfHeaderSize + 4 * i) 4

/-- What `apply_buffer` makes of the buffer an item names. -/
def restoredBuffer (sb : Superblock) (item : RawItem) (buffer : List UInt8) :
    List UInt8 :=
  let runs := runsOf (mapOf item (item.field 16 4)) (buffer.length / blfChunk)
  let copied :=
    if item.blfFlags.testBit 0 then copyUnlinked sb.inodesize runs item.regions.tail buffer
    else copyRuns runs item.regions.tail buffer
  stamp crc32c sb (item.blfFlags / 2 ^ 11) copied

def restoreCore (regions : List (List UInt8)) (fields : ℕ) (inode : List UInt8) :
    Except Error (List UInt8 × ℕ) :=
  if fields.testBit 0 then
    match regions[1]? with
    | none => .error (.corruptLog "an inode item says it logs a core and does not carry one")
    | some core =>
      match logDinodeToDisk core with
      | .error why => .error (.corruptLog s!"a logged inode core: {why}")
      | .ok disk =>
        if inode.length < disk.length then
          .error (.corruptLog s!"a logged inode core is {disk.length} bytes against an inode of {inode.length}")
        else
          let taken := patch inode 0 disk
          -- the unlinked pointer is not the core's to give
          .ok (if diNextUnlinked + 4 ≤ disk.length then
              patch taken diNextUnlinked (slice inode diNextUnlinked 4)
            else taken, 2)
  else .ok (inode, 1)

def forkStart (inode : List UInt8) : ℕ :=
  if 3 ≤ versionOf inode then xfsDinodeV3Size else xfsDinodeV2Size

def forkoffOf (inode : List UInt8) : ℕ :=
  (inode.getD diForkoff 0).toNat * 8

-- `XFS_ILOG_DDATA`, `XFS_ILOG_DEXT` and `XFS_ILOG_DBROOT` are bits 1, 2 and 3
def restoreData (regions : List (List UInt8)) (fields dsize start : ℕ) (st : List UInt8 × ℕ) :
    Except Error (List UInt8 × ℕ) :=
  let (inode, region) := st
  if (fields.testBit 1 ∨ fields.testBit 2 ∨ fields.testBit 3) ∧ 0 < dsize then
    match regions[region]? with
    | none => .error (.corruptLog "an inode item says it logs a data fork and does not carry one")
    | some fork =>
      if fields.testBit 3 ∧ ¬fields.testBit 1 ∧ ¬fields.testBit 2 then do
        let end_ := if forkoffOf inode = 0 then inode.length else start + forkoffOf inode
        ensure (dsize ≤ fork.length) (.corruptLog "short logged data bmbt root")
        ensure (start ≤ end_ ∧ end_ ≤ inode.length) (.corruptLog "data fork past its inode")
        let disk ← loggedRootToDisk (fork.take dsize) (3 ≤ versionOf inode) (end_ - start)
        pure (patch inode start disk, region + 1)
      else
        .ok (patch inode start
          (fork.take (min dsize (inode.length - start))), region + 1)
  else .ok st

-- `XFS_ILOG_ADATA`, `XFS_ILOG_AEXT` and `XFS_ILOG_ABROOT` are bits 6, 7 and 8
def restoreAttr (sb : Superblock) (regions : List (List UInt8)) (fields asize start : ℕ)
    (st : List UInt8 × ℕ) : Except Error (List UInt8) :=
  let (inode, region) := st
  let start := start + forkoffOf inode
  match regions[region]? with
  | some fork =>
    if (fields.testBit 6 ∨ fields.testBit 7 ∨ fields.testBit 8) ∧ 0 < asize ∧
        start < inode.length then
      if fields.testBit 8 then do
        ensure (asize ≤ fork.length) (.corruptLog "short logged attribute bmbt root")
        let root ← inodeRootFromLog (fork.take asize) sb.isV5 (inode.length - start)
        pure (patch inode start root)
      else
        .ok (patch inode start (fork.take (min asize (inode.length - start))))
    else .ok inode
  | none => .ok inode

/-- What `apply_inode` makes of the inode an item names. -/
def restoredInode (sb : Superblock) (item : RawItem) (inode : List UInt8) :
    Except Error (List UInt8) := do
  let fields := item.field 4 4
  let st ← restoreCore item.regions fields inode
  let start := forkStart st.1
  let st ← restoreData item.regions fields (item.field 10 2) start st
  let inode ← restoreAttr sb item.regions fields (item.field 8 2) start st
  pure (stampInode crc32c sb inode)

/-- One inode of a chunk an icreate item makes. -/
def icreateInode (sb : Superblock) (ino gen : ℕ) : List UInt8 :=
  let inode := List.replicate sb.inodesize 0
  let inode := patch inode 0 (beBytes 2 0x494e)
  let inode := patch inode diVersion [3]
  let inode := patch inode diGen (beBytes 4 gen)
  let inode := patch inode diNextUnlinked (beBytes 4 0xffffffff)
  let inode := patch inode diIno (beBytes 8 ino)
  let inode := patch inode diUuid sb.metaUuid
  stampInode crc32c sb inode

end

/-! ## Into the overlay -/

/-- The device a mount is opened on and the overlay a replay fills. -/
structure Replaying where
  device : Device
  into : Overlay
  transactions : ℕ := 0
  buffers : ℕ := 0
  inodes : ℕ := 0
  chunks : ℕ := 0
  deferred : ℕ → ℕ := fun _ => 0

namespace Replaying

def readAt (st : Replaying) (at_ len : ℕ) : Except Error (List UInt8) :=
  st.into.readAt st.device at_ len

def wrote (st : Replaying) (at_ : ℕ) (bytes : List UInt8) : Except Error Replaying :=
  if at_ % 512 = 0 then
    .ok { st with into := st.into.wrote st.device.byte (at_ / 512) bytes }
  else
    .error (.panicked s!"a logged buffer starts on a basic block, not at {at_}")

def defer (st : Replaying) (kind : ℕ) : Replaying :=
  { st with deferred := Function.update st.deferred kind (st.deferred kind + 1) }

def opened (st : Replaying) : Replaying :=
  { st with transactions := st.transactions + 1 }

def view (st : Replaying) : Device :=
  { st.device with byte := st.into.byte st.device.byte }

end Replaying

section

variable (crc32c : List UInt8 → ℕ) (sb : Superblock)

def restoreBuffer (item : RawItem) (st : Replaying) : Except Error Replaying :=
  let len := item.field 6 2
  let mapSize := item.field 16 4
  if len = 0 then .ok st
  else if item.format.length < blfHeaderSize + 4 * mapSize then
    .error (.corruptLog s!"a buffer log item says its bitmap is {mapSize} words, which does not fit the {item.format.length} bytes of the item")
  else do
    let at_ := wrap64 (item.field 8 8 * 512)
    let buffer ← st.readAt at_ (len * 512)
    let st ← st.wrote at_ (restoredBuffer crc32c sb item buffer)
    pure { st with buffers := st.buffers + 1 }

def restoreInode (item : RawItem) (st : Replaying) : Except Error Replaying := do
  let at_ := wrap64 (wrap64 (item.field 40 8 * 512) + item.field 52 4)
  let inode ← st.readAt at_ sb.inodesize
  let inode ← restoredInode crc32c sb item inode
  let st ← st.wrote at_ inode
  pure { st with inodes := st.inodes + 1 }

def icreateSlots (agno agbno gen base : ℕ) : List ℕ → Replaying → Except Error Replaying
  | [], st => .ok st
  | slot :: slots, st => do
    -- the group's inode number is a `u32`
    let ino := sb.joinIno agno ((agbno * 2 ^ sb.inopblog % 2 ^ 32 + slot) % 2 ^ 32)
    let st ← st.wrote (wrap64 (base + slot * sb.inodesize)) (icreateInode crc32c sb ino gen)
    icreateSlots agno agbno gen base slots st

def applyIcreate (item : RawItem) (st : Replaying) : Except Error Replaying := do
  let be := fun at_ => beValue (slice item.format at_ 4)
  let agno := be 4
  let agbno := be 8
  let count := be 12
  let isize := be 16
  let length := be 20
  let gen := be 24
  ensure (icreateLogSize ≤ item.format.length)
    (.corruptLog "an icreate item is shorter than its own format")
  ensure (agno < sb.agcount)
    (.corruptLog s!"an icreate item names allocation group {agno}, and the filesystem has {sb.agcount}")
  ensure (isize = sb.inodesize)
    (.corruptLog s!"an icreate item makes inodes of {isize} bytes on a filesystem whose inodes are {sb.inodesize}")
  ensure (count * isize = length * sb.blocksize)
    (.corruptLog s!"an icreate item makes {count} inodes of {isize} bytes in {length} blocks, which do not fill it")
  let base := sb.fsblockOffset (wrap64 (agno * 2 ^ sb.agblklog) ||| agbno)
  let st ← icreateSlots crc32c sb agno agbno gen base (List.range count) st
  pure { st with chunks := st.chunks + 1 }

def restoreDquot (item : RawItem) (st : Replaying) : Except Error Replaying := do
  let placed ← applyDquot crc32c sb st.view item.regions
  let st ← st.wrote placed.at_ placed.block
  pure { st with buffers := st.buffers + 1 }

/-! ## The two passes -/

def countCancel (table : CancelTable) (item : RawItem) : CancelTable :=
  if item.isCancel then Function.update table item.blfKey (table item.blfKey + 1) else table

def passOne (transactions : List (List RawItem)) : CancelTable :=
  transactions.foldl (fun table items => items.foldl countCancel table) fun _ => 0

def applyBuffer (item : RawItem) (st : CancelTable × Replaying) :
    Except Error (CancelTable × Replaying) :=
  if item.format.length < blfHeaderSize then
    .error (.corruptLog "a buffer log item is shorter than its own header")
  else if item.blfFlags.testBit 1 then
    .ok (Function.update st.1 item.blfKey (st.1 item.blfKey - 1), st.2)
  else if st.1 item.blfKey ≠ 0 then .ok st
  else (restoreBuffer crc32c sb item st.2).map fun after => (st.1, after)

def applyInode (item : RawItem) (st : CancelTable × Replaying) :
    Except Error (CancelTable × Replaying) :=
  if item.format.length < inodeLogFormatSize then
    .error (.corruptLog "an inode log item is shorter than its own format")
  else if st.1 item.ilfKey ≠ 0 then .ok st
  else (restoreInode crc32c sb item st.2).map fun after => (st.1, after)

def applyRaw (st : CancelTable × Replaying) (item : RawItem) :
    Except Error (CancelTable × Replaying) :=
  if item.kind = xfsLiBuf then applyBuffer crc32c sb item st
  else if item.kind = xfsLiInode then applyInode crc32c sb item st
  else if item.kind = xfsLiIcreate then
    (applyIcreate crc32c sb item st.2).map fun after => (st.1, after)
  else if item.kind = xfsLiDquot then
    (restoreDquot crc32c sb item st.2).map fun after => (st.1, after)
  else .ok (st.1, st.2.defer item.kind)

def passTwo (transactions : List (List RawItem)) (st : CancelTable × Replaying) :
    Except Error (CancelTable × Replaying) :=
  transactions.foldlM (fun st items => items.foldlM (applyRaw crc32c sb) (st.1, st.2.opened)) st

/-- `replay`, over the committed transactions the walk hands on. -/
def replay (transactions : List (List RawItem)) (st : Replaying) : Except Error Replaying :=
  (passTwo crc32c sb transactions (passOne transactions, st)).map Prod.snd

/-! ## What the passes come to -/

end

namespace RawItem

def key? (item : RawItem) : Option (ℕ × ℕ) :=
  if item.kind = xfsLiBuf ∧ blfHeaderSize ≤ item.format.length then some item.blfKey
  else if item.kind = xfsLiInode ∧ inodeLogFormatSize ≤ item.format.length then some item.ilfKey
  else none

def Withheld (item : RawItem) (later : List RawItem) : Prop :=
  ∃ c ∈ later, c.isCancel = true ∧ item.key? = some c.blfKey

instance (item : RawItem) (later : List RawItem) : Decidable (item.Withheld later) :=
  inferInstanceAs (Decidable (∃ c ∈ later, _))

end RawItem

/-- The items of a transaction that no later cancel names, `later` being the items of the
transactions after it. -/
def survivors (later : List RawItem) : List RawItem → List RawItem
  | [] => []
  | item :: items =>
    if item.isCancel ∨ item.Withheld (items ++ later) then survivors later items
    else item :: survivors later items

def allSurvivors : List (List RawItem) → List (List RawItem)
  | [] => []
  | items :: rest => survivors rest.flatten items :: allSurvivors rest

section

variable (crc32c : List UInt8 → ℕ) (sb : Superblock)

/-- What an item does when nothing withholds it. -/
def restore (st : Replaying) (item : RawItem) : Except Error Replaying :=
  if item.kind = xfsLiBuf then
    if item.format.length < blfHeaderSize then
      .error (.corruptLog "a buffer log item is shorter than its own header")
    else restoreBuffer crc32c sb item st
  else if item.kind = xfsLiInode then
    if item.format.length < inodeLogFormatSize then
      .error (.corruptLog "an inode log item is shorter than its own format")
    else restoreInode crc32c sb item st
  else if item.kind = xfsLiIcreate then applyIcreate crc32c sb item st
  else if item.kind = xfsLiDquot then restoreDquot crc32c sb item st
  else .ok (st.defer item.kind)

def restoreAll (transactions : List (List RawItem)) (st : Replaying) : Except Error Replaying :=
  transactions.foldlM (fun st items => items.foldlM (restore crc32c sb) st.opened) st

def cancelsIn (later : List RawItem) : CancelTable := fun key =>
  later.countP fun c => c.isCancel && decide (key = c.blfKey)

end

/-! ### The table -/

variable {item : RawItem}

theorem cancelsIn_cons_of_cancel (h : item.isCancel = true) (later : List RawItem) :
    cancelsIn (item :: later) =
      Function.update (cancelsIn later) item.blfKey (cancelsIn later item.blfKey + 1) := by
  funext key
  by_cases hkey : key = item.blfKey
  · subst hkey
    simp [cancelsIn, h]
  · simp [cancelsIn, hkey]

theorem cancelsIn_cons_of_not_cancel (h : item.isCancel = false) (later : List RawItem) :
    cancelsIn (item :: later) = cancelsIn later := by
  funext key
  simp [cancelsIn, h]

theorem foldl_countCancel (items : List RawItem) (table : CancelTable) (key : ℕ × ℕ) :
    items.foldl countCancel table key = table key + cancelsIn items key := by
  induction items generalizing table with
  | nil => simp [cancelsIn]
  | cons item items ih =>
    rw [List.foldl_cons, ih, countCancel]
    by_cases hcancel : item.isCancel = true
    · rw [if_pos hcancel, cancelsIn_cons_of_cancel hcancel]
      by_cases hkey : key = item.blfKey
      · subst hkey
        rw [Function.update_self, Function.update_self]
        omega
      · rw [Function.update_of_ne hkey, Function.update_of_ne hkey]
    · rw [if_neg hcancel, cancelsIn_cons_of_not_cancel (by simpa using hcancel)]

theorem passOne_eq (transactions : List (List RawItem)) :
    passOne transactions = cancelsIn transactions.flatten := by
  have hfold : ∀ (table : CancelTable) (key : ℕ × ℕ),
      transactions.foldl (fun table items => items.foldl countCancel table) table key =
        table key + cancelsIn transactions.flatten key := by
    induction transactions with
    | nil => simp [cancelsIn]
    | cons items rest ih =>
      intro table key
      rw [List.foldl_cons, ih, foldl_countCancel, List.flatten_cons]
      simp only [cancelsIn, List.countP_append, Nat.add_assoc]
  funext key
  rw [passOne, hfold, Nat.zero_add]

/-! ### One item -/

section

variable {crc32c : List UInt8 → ℕ} {sb : Superblock}

theorem withheld_iff {key : ℕ × ℕ} (h : item.key? = some key) (later : List RawItem) :
    item.Withheld later ↔ cancelsIn later key ≠ 0 := by
  rw [← Nat.pos_iff_ne_zero, cancelsIn, List.countP_pos_iff, RawItem.Withheld, h]
  simp

theorem not_withheld (h : item.key? = none) (later : List RawItem) :
    ¬item.Withheld later := by
  rintro ⟨c, -, -, hkey⟩
  rw [h] at hkey
  cases hkey

theorem applyBuffer_of_cancels (hkind : item.kind = xfsLiBuf) (later : List RawItem)
    (st : Replaying) :
    applyBuffer crc32c sb item (cancelsIn (item :: later), st) =
      if item.isCancel ∨ item.Withheld later then .ok (cancelsIn later, st)
      else (restore crc32c sb st item).map fun after => (cancelsIn later, after) := by
  have hrestore : restore crc32c sb st item =
      if item.format.length < blfHeaderSize then
        .error (.corruptLog "a buffer log item is shorter than its own header")
      else restoreBuffer crc32c sb item st := if_pos hkind
  unfold applyBuffer
  by_cases hshort : item.format.length < blfHeaderSize
  · have hcancel : item.isCancel = false := by
      simp [RawItem.isCancel, Nat.not_le.mpr hshort]
    have hkey : item.key? = none := by
      have hinode : item.kind ≠ xfsLiInode := by
        rw [hkind]
        decide
      rw [RawItem.key?, if_neg (by omega), if_neg fun h => hinode h.1]
    rw [if_pos hshort, hrestore, if_pos hshort, if_neg]
    · rfl
    · simp [hcancel, not_withheld hkey]
  · have hkey : item.key? = some item.blfKey := if_pos ⟨hkind, by omega⟩
    rw [if_neg hshort, hrestore, if_neg hshort]
    simp only [withheld_iff hkey]
    by_cases hflag : item.blfFlags.testBit 1 = true
    · have hcancel : item.isCancel = true := by
        simp [RawItem.isCancel, hkind, Nat.not_lt.mp hshort, hflag]
      rw [if_pos hflag, if_pos (.inl hcancel), cancelsIn_cons_of_cancel hcancel]
      simp
    · have hcancel : item.isCancel = false := by
        simp [RawItem.isCancel, hflag]
      rw [if_neg hflag, cancelsIn_cons_of_not_cancel hcancel, hcancel]
      simp only [Bool.false_eq_true, false_or]

theorem applyInode_of_cancels (hkind : item.kind = xfsLiInode) (later : List RawItem)
    (st : Replaying) :
    applyInode crc32c sb item (cancelsIn (item :: later), st) =
      if item.isCancel ∨ item.Withheld later then .ok (cancelsIn later, st)
      else (restore crc32c sb st item).map fun after => (cancelsIn later, after) := by
  have hnot : item.kind ≠ xfsLiBuf := by
    rw [hkind]
    decide
  have hcancel : item.isCancel = false := by
    simp [RawItem.isCancel, hnot]
  have hrestore : restore crc32c sb st item =
      if item.format.length < inodeLogFormatSize then
        .error (.corruptLog "an inode log item is shorter than its own format")
      else restoreInode crc32c sb item st := by
    rw [restore, if_neg hnot, if_pos hkind]
  rw [applyInode, cancelsIn_cons_of_not_cancel hcancel, hcancel, hrestore]
  simp only [Bool.false_eq_true, false_or]
  by_cases hshort : item.format.length < inodeLogFormatSize
  · have hkey : item.key? = none := by
      rw [RawItem.key?, if_neg (fun h => hnot h.1), if_neg (by omega)]
    rw [if_pos hshort, if_pos hshort, if_neg (not_withheld hkey later)]
    rfl
  · have hkey : item.key? = some item.ilfKey := by
      rw [RawItem.key?, if_neg (fun h => hnot h.1), if_pos ⟨hkind, by omega⟩]
    rw [if_neg hshort, if_neg hshort]
    simp only [withheld_iff hkey]

/-- With the table counting the cancels from an item on, the item is restored unless it is a cancel
or a cancel for it follows, and the table then counts those after it. -/
theorem applyRaw_of_cancels (item : RawItem) (later : List RawItem) (st : Replaying) :
    applyRaw crc32c sb (cancelsIn (item :: later), st) item =
      if item.isCancel ∨ item.Withheld later then .ok (cancelsIn later, st)
      else (restore crc32c sb st item).map fun after => (cancelsIn later, after) := by
  unfold applyRaw
  by_cases hbuf : item.kind = xfsLiBuf
  · rw [if_pos hbuf, applyBuffer_of_cancels hbuf]
  by_cases hinode : item.kind = xfsLiInode
  · rw [if_neg hbuf, if_pos hinode, applyInode_of_cancels hinode]
  have hcancel : item.isCancel = false := by
    simp [RawItem.isCancel, hbuf]
  have hkey : item.key? = none := by
    rw [RawItem.key?, if_neg (fun h => hbuf h.1), if_neg (fun h => hinode h.1)]
  have hfree : ¬(item.isCancel = true ∨ item.Withheld later) := by
    simp [hcancel, not_withheld hkey]
  rw [if_neg hbuf, if_neg hinode, if_neg hfree, restore, if_neg hbuf, if_neg hinode,
    cancelsIn_cons_of_not_cancel hcancel]
  by_cases hicreate : item.kind = xfsLiIcreate
  · rw [if_pos hicreate, if_pos hicreate]
  by_cases hdquot : item.kind = xfsLiDquot
  · rw [if_neg hicreate, if_neg hicreate, if_pos hdquot, if_pos hdquot]
  · rw [if_neg hicreate, if_neg hicreate, if_neg hdquot, if_neg hdquot]
    rfl

/-! ### Whole runs -/

theorem foldlM_applyRaw (items later : List RawItem) (st : Replaying) :
    items.foldlM (applyRaw crc32c sb) (cancelsIn (items ++ later), st) =
      ((survivors later items).foldlM (restore crc32c sb) st).map fun after =>
        (cancelsIn later, after) := by
  induction items generalizing st with
  | nil => rfl
  | cons item items ih =>
    rw [List.foldlM_cons, List.cons_append, applyRaw_of_cancels, survivors]
    by_cases hdrop : item.isCancel = true ∨ item.Withheld (items ++ later)
    · rw [if_pos hdrop, if_pos hdrop]
      exact ih st
    · rw [if_neg hdrop, if_neg hdrop, List.foldlM_cons]
      cases hitem : restore crc32c sb st item with
      | error e => rfl
      | ok after => exact ih after

theorem passTwo_eq (transactions : List (List RawItem)) (st : Replaying) :
    passTwo crc32c sb transactions (cancelsIn transactions.flatten, st) =
      (restoreAll crc32c sb (allSurvivors transactions) st).map fun after =>
        (cancelsIn [], after) := by
  induction transactions generalizing st with
  | nil => rfl
  | cons items rest ih =>
    rw [passTwo, List.foldlM_cons, List.flatten_cons, foldlM_applyRaw, allSurvivors, restoreAll,
      List.foldlM_cons]
    cases hitems : (survivors rest.flatten items).foldlM (restore crc32c sb) st.opened with
    | error e => rfl
    | ok after => exact ih after

/-- A replay restores, in the order they were written, exactly the items that are not followed by a
cancel of their own address and length; a cancel restores nothing. -/
theorem replay_restores_survivors (transactions : List (List RawItem)) (st : Replaying) :
    replay crc32c sb transactions st =
      restoreAll crc32c sb (allSurvivors transactions) st := by
  rw [replay, passOne_eq, passTwo_eq]
  cases restoreAll crc32c sb (allSurvivors transactions) st with
  | error e => rfl
  | ok after => rfl

end

/-! ## Buffers taken as they stand -/

/-- A buffer of no inodes, on which a replay stamps no checksum. -/
structure RawItem.Plain (crc32c : List UInt8 → ℕ) (sb : Superblock) (item : RawItem) : Prop where
  kind : item.kind = xfsLiBuf
  noInodes : item.blfFlags.testBit 0 = false
  unstamped : ∀ buffer, stamp crc32c sb (item.blfFlags / 2 ^ 11) buffer = buffer
  addressable : item.field 8 8 * 512 < 2 ^ 64

section

variable {crc32c : List UInt8 → ℕ} {sb : Superblock}

theorem foldl_patch {buffer : List UInt8} {view : ℕ → UInt8} {at_ : ℕ} {chunks : List (ℕ × List UInt8)}
    (hin : ∀ c ∈ chunks, c.1 + c.2.length ≤ buffer.length)
    (hview : ∀ i < buffer.length, buffer[i]? = some (view (at_ + i))) :
    (chunks.foldl (fun buffer c => patch buffer c.1 c.2) buffer).length = buffer.length ∧
      ∀ i < buffer.length, (chunks.foldl (fun buffer c => patch buffer c.1 c.2) buffer)[i]? =
        some (applyAll (chunks.map fun c => chunkPatch (at_ + c.1) c.2) view (at_ + i)) := by
  induction chunks generalizing buffer view with
  | nil => exact ⟨rfl, hview⟩
  | cons c chunks ih =>
    obtain ⟨hc, hchunks⟩ := List.forall_mem_cons.mp hin
    have hlen := patch_length hc
    have hnext := @ih (patch buffer c.1 c.2) (apply (chunkPatch (at_ + c.1) c.2) view)
      (by rwa [hlen]) fun i hi => ?_
    · rwa [hlen] at hnext
    · rw [getElem?_patch hc, apply, chunkPatch]
      by_cases hinside : c.1 ≤ i ∧ i < c.1 + c.2.length
      · rw [if_pos hinside, if_pos (by omega), Option.getD_some, List.getD_eq_getElem?_getD,
          show at_ + i - (at_ + c.1) = i - c.1 by omega, List.getElem?_eq_getElem (by omega)]
        rfl
      · rw [if_neg hinside, if_neg (by omega), Option.getD_none, hview i (by omega)]

-- the runs of an item over a buffer of so many bytes, as `decodeBuffer` has them
def chunksOf (bytes : ℕ) (item : RawItem) : List (ℕ × List UInt8) :=
  ((runsOf (mapOf item (item.field 16 4)) (bytes / blfChunk)).zip item.regions.tail).map
    fun (run, region) =>
      (run.1 * blfChunk, region.take (min (run.2 * blfChunk) (bytes - run.1 * blfChunk)))

theorem chunksOf_inside {bytes : ℕ} : ∀ c ∈ chunksOf bytes item, c.1 + c.2.length ≤ bytes := by
  intro c hc
  obtain ⟨⟨run, region⟩, hmem, rfl⟩ := List.mem_map.mp hc
  have hrun := ((runsFrom_spec _ _ (by omega)).1 run (List.of_mem_zip hmem).1).2.1
  have hle := Nat.min_le_right ((mapOf item (item.field 16 4)).length * 32) (bytes / blfChunk)
  simp only [List.length_take, blfChunk] at hrun hle ⊢
  omega

theorem not_covers_chunksOf {bytes at_ a : ℕ} (h : ¬(at_ ≤ a ∧ a < at_ + bytes)) :
    ¬Covers ((chunksOf bytes item).map fun c => chunkPatch (at_ + c.1) c.2) a := by
  rintro ⟨p, hp, hsome⟩
  obtain ⟨c, hc, rfl⟩ := List.mem_map.mp hp
  have hinside := chunksOf_inside c hc
  rw [chunkPatch, if_neg (by omega)] at hsome
  cases hsome

theorem copyRuns_eq (buffer : List UInt8) :
    copyRuns (runsOf (mapOf item (item.field 16 4)) (buffer.length / blfChunk)) item.regions.tail
      buffer = (chunksOf buffer.length item).foldl (fun buffer c => patch buffer c.1 c.2) buffer := by
  have hinside := @chunksOf_inside item buffer.length
  rw [chunksOf] at hinside ⊢
  rw [copyRuns, List.foldl_map]
  generalize (runsOf _ _).zip item.regions.tail = pairs at hinside
  generalize hlen : buffer.length = bytes at hinside ⊢
  induction pairs generalizing buffer with
  | nil => rfl
  | cons p pairs ih =>
    obtain ⟨hp, hpairs⟩ := List.forall_mem_cons.mp hinside
    rw [List.foldl_cons, List.foldl_cons, hlen]
    exact ih _ ((patch_length (hlen ▸ hp)).trans hlen) hpairs

theorem decodeBuffer_eq (hkind : item.kind = xfsLiBuf) (hlong : ¬item.format.length < blfHeaderSize) :
    decodeBuffer item =
      if item.blfFlags.testBit 1 then some ⟨item.field 8 8, item.field 6 2, true, item.field 8 8, 0, []⟩
      else if item.field 6 2 = 0 ∨ item.format.length < blfHeaderSize + 4 * item.field 16 4 then none
      else some ⟨item.field 8 8, item.field 6 2, false, item.field 8 8, item.field 6 2 * 512,
        chunksOf (item.field 6 2 * 512) item⟩ := by
  have hfield : ¬(leValue (slice (item.regions.headD []) 0 2) ≠ xfsLiBuf ∨
      (item.regions.headD []).length < blfHeaderSize) := by
    unfold RawItem.kind at hkind
    split at hkind
    · cases hkind
    · exact not_or.mpr ⟨not_not.mpr hkind, hlong⟩
  unfold decodeBuffer
  rw [if_neg hfield]
  rfl

theorem restoredBuffer_plain {st : Replaying} {buffer : List UInt8} {at_ bytes : ℕ}
    (hplain : item.Plain crc32c sb) (hread : st.readAt at_ bytes = .ok buffer) :
    (restoredBuffer crc32c sb item buffer).length = bytes ∧
      ∀ i < bytes, (restoredBuffer crc32c sb item buffer)[i]? =
        some (applyAll ((chunksOf bytes item).map fun c => chunkPatch (at_ + c.1) c.2)
          (st.into.byte st.device.byte) (at_ + i)) := by
  rw [Replaying.readAt, Overlay.readAt_eq] at hread
  cases hdevice : st.device.readAt at_ bytes with
  | error e =>
    rw [hdevice] at hread
    cases hread
  | ok read =>
    rw [hdevice] at hread
    have hbuffer := Except.ok.inj hread
    have hlen : buffer.length = bytes := by rw [← hbuffer, List.length_map, List.length_range]
    have hrestored : restoredBuffer crc32c sb item buffer =
        (chunksOf buffer.length item).foldl (fun buffer c => patch buffer c.1 c.2) buffer := by
      rw [← copyRuns_eq]
      unfold restoredBuffer
      rw [hplain.unstamped, hplain.noInodes, if_neg Bool.false_ne_true]
    have hpatched := @foldl_patch buffer (st.into.byte st.device.byte) at_
      (chunksOf buffer.length item) chunksOf_inside fun i hi => by
        rw [← hbuffer, List.getElem?_map, List.getElem?_range (hlen ▸ hi)]
        rfl
    rwa [← hrestored, hlen] at hpatched

theorem restoreBuffer_plain {st st' : Replaying} (hplain : item.Plain crc32c sb)
    (hlong : ¬item.format.length < blfHeaderSize) (hcancel : ¬item.blfFlags.testBit 1 = true)
    (h : restoreBuffer crc32c sb item st = .ok st') :
    st'.device = st.device ∧ st'.into.byte st.device.byte = applyAll
      ((decodeBuffer item).elim [] Item.patches) (st.into.byte st.device.byte) := by
  rw [decodeBuffer_eq hplain.kind hlong, if_neg hcancel]
  unfold restoreBuffer at h
  dsimp only at h
  by_cases hzero : item.field 6 2 = 0
  · rw [if_pos hzero] at h
    rw [if_pos (.inl hzero)]
    cases h
    exact ⟨rfl, rfl⟩
  by_cases hshort : item.format.length < blfHeaderSize + 4 * item.field 16 4
  · rw [if_neg hzero, if_pos hshort] at h
    cases h
  rw [if_neg hzero, if_neg hshort] at h
  rw [if_neg (not_or.mpr ⟨hzero, hshort⟩)]
  obtain ⟨buffer, hread, h⟩ := bind_eq_ok.mp h
  obtain ⟨after, hwrote, h⟩ := bind_eq_ok.mp h
  cases h
  rw [wrap64, Nat.mod_eq_of_lt hplain.addressable] at hread hwrote
  obtain ⟨hlength, hget⟩ := restoredBuffer_plain hplain hread
  rw [Replaying.wrote, if_pos (Nat.mul_mod_left _ _), Nat.mul_div_cancel _ (by decide)] at hwrote
  cases hwrote
  refine ⟨rfl, funext fun a => ?_⟩
  rw [Overlay.byte_wrote, hlength]
  by_cases hin : item.field 8 8 * 512 ≤ a ∧ a < item.field 8 8 * 512 + item.field 6 2 * 512
  · rw [if_pos hin, List.getD_eq_getElem?_getD, hget _ (by omega), Option.getD_some,
      Nat.add_sub_cancel' hin.1]
    rfl
  · rw [if_neg hin]
    exact (applyAll_of_not_covers (not_covers_chunksOf hin)).symm

theorem applyRaw_plain {table table' : CancelTable} {st st' : Replaying} (hplain : item.Plain crc32c sb)
    (h : applyRaw crc32c sb (table, st) item = .ok (table', st')) :
    st'.device = st.device ∧ (table', st'.into.byte st.device.byte) =
      (decodeBuffer item).toList.foldl applyItem (table, st.into.byte st.device.byte) := by
  rw [applyRaw, if_pos hplain.kind, applyBuffer] at h
  by_cases hlong : item.format.length < blfHeaderSize
  · rw [if_pos hlong] at h
    cases h
  rw [if_neg hlong] at h
  have hdecode := decodeBuffer_eq hplain.kind hlong
  by_cases hcancel : item.blfFlags.testBit 1 = true
  · rw [if_pos hcancel] at h
    rw [hdecode, if_pos hcancel]
    cases h
    exact ⟨rfl, rfl⟩
  rw [if_neg hcancel] at h hdecode
  have hkey : ∀ i ∈ decodeBuffer item, i.cancel = false ∧ i.key = item.blfKey := by
    intro i hi
    rw [hdecode, Option.mem_def] at hi
    split at hi <;> cases hi
    exact ⟨rfl, rfl⟩
  by_cases hheld : table item.blfKey ≠ 0
  · rw [if_pos hheld] at h
    cases h
    cases hi : decodeBuffer item with
    | none => exact ⟨rfl, rfl⟩
    | some i =>
      obtain ⟨hno, hsame⟩ := hkey i hi
      refine ⟨rfl, ?_⟩
      simp [applyItem, hno, hsame, hheld]
  · rw [if_neg hheld] at h
    cases hafter : restoreBuffer crc32c sb item st with
    | error e =>
      rw [hafter] at h
      cases h
    | ok after =>
      rw [hafter] at h
      cases h
      obtain ⟨hdevice, hbytes⟩ := restoreBuffer_plain hplain hlong hcancel hafter
      refine ⟨hdevice, ?_⟩
      rw [hbytes]
      cases hi : decodeBuffer item with
      | none => rfl
      | some i =>
        obtain ⟨hno, hsame⟩ := hkey i hi
        simp [applyItem, hno, hsame, not_not.mp hheld]

theorem foldlM_applyRaw_plain {items : List RawItem} {table table' : CancelTable} {st st' : Replaying}
    (hplain : ∀ item ∈ items, item.Plain crc32c sb)
    (h : items.foldlM (applyRaw crc32c sb) (table, st) = .ok (table', st')) :
    st'.device = st.device ∧ (table', st'.into.byte st.device.byte) =
      (items.filterMap decodeBuffer).foldl applyItem (table, st.into.byte st.device.byte) := by
  induction items generalizing table st with
  | nil =>
    cases h
    exact ⟨rfl, rfl⟩
  | cons item items ih =>
    obtain ⟨hitem, hitems⟩ := List.forall_mem_cons.mp hplain
    rw [List.foldlM_cons] at h
    obtain ⟨⟨table₁, st₁⟩, hstep, h⟩ := bind_eq_ok.mp h
    obtain ⟨hdevice₁, hstep⟩ := applyRaw_plain hitem hstep
    obtain ⟨hdevice, hrest⟩ := ih hitems h
    refine ⟨hdevice.trans hdevice₁, ?_⟩
    rw [hdevice₁, hstep] at hrest
    rw [hrest, ← List.foldl_append]
    congr 1
    cases hdecode : decodeBuffer item <;> simp [hdecode]

theorem passTwo_plain {transactions : List (List RawItem)} {table : CancelTable}
    {st : Replaying} {after : CancelTable × Replaying}
    (hplain : ∀ items ∈ transactions, ∀ item ∈ items, item.Plain crc32c sb)
    (h : passTwo crc32c sb transactions (table, st) = .ok after) :
    after.2.device = st.device ∧ (after.1, after.2.into.byte st.device.byte) =
      (transactions.flatten.filterMap decodeBuffer).foldl applyItem
        (table, st.into.byte st.device.byte) := by
  induction transactions generalizing table st with
  | nil =>
    cases h
    exact ⟨rfl, rfl⟩
  | cons items rest ih =>
    obtain ⟨hitems, hrest⟩ := List.forall_mem_cons.mp hplain
    rw [passTwo, List.foldlM_cons] at h
    obtain ⟨⟨table₁, st₁⟩, hfirst, h⟩ := bind_eq_ok.mp h
    obtain ⟨hdevice₁, hfirst⟩ := foldlM_applyRaw_plain hitems hfirst
    change st₁.device = st.device at hdevice₁
    change (table₁, st₁.into.byte st.device.byte) =
      (items.filterMap decodeBuffer).foldl applyItem (table, st.into.byte st.device.byte) at hfirst
    obtain ⟨hdevice, hbytes⟩ := ih hrest h
    refine ⟨hdevice.trans hdevice₁, ?_⟩
    rw [hdevice₁, hfirst, ← List.foldl_append, ← List.filterMap_append] at hbytes
    exact hbytes

theorem passOne_plain {transactions : List (List RawItem)}
    (hplain : ∀ items ∈ transactions, ∀ item ∈ items, item.Plain crc32c sb) :
    passOne transactions = cancelTable (transactions.flatten.filterMap decodeBuffer) := by
  funext key
  rw [passOne_eq, cancelsIn, cancelTable, List.countP_filterMap]
  refine List.countP_congr fun item hmem => ?_
  obtain ⟨items, hitems, hmem⟩ := List.mem_flatten.mp hmem
  have hkind := (hplain items hitems item hmem).kind
  by_cases hlong : item.format.length < blfHeaderSize
  · have hnone : decodeBuffer item = none := if_pos (.inr hlong)
    simp [RawItem.isCancel, hnone, Nat.not_le.mpr hlong]
  rw [decodeBuffer_eq hkind hlong]
  by_cases hcancel : item.blfFlags.testBit 1 = true
  · have hraw : item.isCancel = true := by
      simp [RawItem.isCancel, hkind, Nat.not_lt.mp hlong, hcancel]
    rw [if_pos hcancel, hraw]
    change decide (key = item.blfKey) = true ↔ decide (item.blfKey = key) = true
    rw [decide_eq_true_eq, decide_eq_true_eq, eq_comm]
  · rw [if_neg hcancel]
    split <;> simp [RawItem.isCancel, hcancel]

/-- Over such buffers a replay leaves what `replayItems` makes of the items the records hold. -/
theorem replay_plain {transactions : List (List RawItem)} {st st' : Replaying}
    (hplain : ∀ items ∈ transactions, ∀ item ∈ items, item.Plain crc32c sb)
    (h : replay crc32c sb transactions st = .ok st') :
    st'.into.byte st.device.byte =
      replayItems (transactions.flatten.filterMap decodeBuffer) (st.into.byte st.device.byte) := by
  rw [replay, passOne_plain hplain] at h
  cases hafter : passTwo crc32c sb transactions
      (cancelTable (transactions.flatten.filterMap decodeBuffer), st) with
  | error e =>
    rw [hafter] at h
    cases h
  | ok after =>
    rw [hafter] at h
    cases h
    exact congrArg Prod.snd (passTwo_plain hplain hafter).2

end

end FsXfs.Log
