import FsXfs.Group.Btree
import FsXfs.Group.FreeSpace
import FsXfs.Group.Rmap
import FsXfs.Group.Refcount

/-!
# The four trees of a group

The shape of each tree and how its records and keys are written: `alloc_btree.rs`, `rmap.rs` and
`refcount.rs`.
-/

namespace FsXfs.Group

open Bytes

set_option autoImplicit false

/-! ## Free space -/

inductive Order where
  | byBlock
  | byCount
  deriving DecidableEq, Repr

namespace Order

def magic : Order → Bool → ℕ
  | byBlock, true => 0x41423342
  | byBlock, false => 0x41425442
  | byCount, true => 0x41423343
  | byCount, false => 0x41425443

def name : Order → String
  | byBlock => "bnobt"
  | byCount => "cntbt"

def shape (order : Order) : Shape where
  name := order.name
  magicV4 := some (order.magic false)
  magicV5 := order.magic true
  recordLen := 8
  keyLen := 8
  overlapping := false

end Order

def encodeFreeExtent (e : FreeExtent) : List UInt8 :=
  beBytes 4 e.startblock ++ beBytes 4 e.blockcount

def decodeFreeExtent (bytes : List UInt8) : FreeExtent :=
  ⟨beAt bytes 0 4, beAt bytes 4 4⟩

def freeCodec (order : Order) : Codec FreeExtent where
  shape := order.shape
  encode := encodeFreeExtent
  decode := decodeFreeExtent
  keys records := records.head?.elim [] encodeFreeExtent

/-! ## The reverse map -/

-- an owner as the `u64` of the same bits, and back
def unsigned (owner : ℤ) : ℕ :=
  (owner % 2 ^ 64).toNat

def signed (n : ℕ) : ℤ :=
  if n < 2 ^ 63 then n else n - 2 ^ 64

def encodeRmap (r : Rmap) : List UInt8 :=
  beBytes 4 r.startblock ++ beBytes 4 r.blockcount ++ beBytes 8 (unsigned r.owner) ++
    beBytes 8 r.offset

def decodeRmap (bytes : List UInt8) : Rmap :=
  ⟨beAt bytes 0 4, beAt bytes 4 4, signed (beAt bytes 8 8), beAt bytes 16 8⟩

def encodeRmapKey (r : Rmap) : List UInt8 :=
  beBytes 4 r.startblock ++ beBytes 8 (unsigned r.owner) ++ beBytes 8 r.offset

def highKey (r : Rmap) : Rmap :=
  let adjust := r.blockcount - 1
  ⟨min (r.startblock + adjust) (2 ^ 32 - 1), 0, r.owner,
    if r.isReservedOwner || r.isBmbtBlock then r.offset
    else (r.fileOffset + adjust) ||| r.flags⟩

def rankLe (a b : Rmap) : Bool :=
  decide (a.startblock < b.startblock) ||
    (decide (a.startblock = b.startblock) && (decide (unsigned a.owner < unsigned b.owner) ||
      (decide (unsigned a.owner = unsigned b.owner) && decide (a.fileOffset ≤ b.fileOffset))))

def higherKey (best k : Rmap) : Rmap :=
  if rankLe best k then k else best

def writeRmapKeys : List Rmap → List UInt8
  | [] => []
  | first :: rest =>
    encodeRmapKey first ++ encodeRmapKey ((rest.map highKey).foldl higherKey (highKey first))

def rmapShape : Shape where
  name := "rmapbt"
  magicV4 := none
  magicV5 := 0x524d4233
  recordLen := 24
  keyLen := 20
  overlapping := true

def rmapCodec : Codec Rmap where
  shape := rmapShape
  encode := encodeRmap
  decode := decodeRmap
  keys := writeRmapKeys

/-! ## Reference counts -/

abbrev cowFlag : ℕ := 2 ^ 31

def cowStart (r : Refcount) : ℕ :=
  if r.cow then r.startblock ||| cowFlag else r.startblock

def encodeRefcount (r : Refcount) : List UInt8 :=
  beBytes 4 (cowStart r) ++ beBytes 4 r.blockcount ++ beBytes 4 r.refcount

def decodeRefcount (bytes : List UInt8) : Refcount :=
  let raw := beAt bytes 0 4
  ⟨raw % cowFlag, beAt bytes 4 4, beAt bytes 8 4, raw.testBit 31⟩

def refcountShape : Shape where
  name := "refcountbt"
  magicV4 := none
  magicV5 := 0x52334643
  recordLen := 12
  keyLen := 4
  overlapping := false

def refcountCodec : Codec Refcount where
  shape := refcountShape
  encode := encodeRefcount
  decode := decodeRefcount
  keys records := records.head?.elim [] fun r => beBytes 4 (cowStart r)

/-! ## Each block once -/

/-- A walk answers with blocks that differ where no two pointers lead to one block, and laying the
tree out again moves blocks between it and the free list and makes none twice. -/
theorem walkBlocks_nodup_iff {T : Type} {crc32c : List UInt8 → ℕ} {sb : Superblock} {agno : ℕ}
    {codec : Codec T} {read : ℕ → Except Error (List UInt8)} {root levels : ℕ} {records : List T}
    {blocks : List ℕ} (hroot : root < 2 ^ 32)
    (h : walkBlocks crc32c sb agno codec read root levels = .ok (records, blocks)) :
    (blocks.Nodup ↔ ((under crc32c sb agno codec read (levels - 1) root).map Prod.fst).Nodup) ∧
    ∀ wanted agfl blocks' agfl', agfl.Ok sb →
      refit sb agno wanted blocks agfl = .ok (blocks', agfl') →
      (blocks' ++ agfl'.entries sb).Perm (blocks ++ agfl.entries sb) := by
  refine ⟨(walkBlocks_perm h).nodup_iff, fun wanted agfl blocks' agfl' hok hrefit => ?_⟩
  obtain ⟨-, -, -, hmoved⟩ := refit_spec hok (walkBlocks_lt h hroot) hrefit
  rcases hmoved with ⟨taken, rfl, hentries, -⟩ | ⟨spare, rfl, hentries⟩
  · rw [hentries, List.append_assoc]
  · rw [hentries, List.append_assoc]
    exact (List.perm_append_comm.trans ((List.reverse_perm spare).append_right _)).append_left _

/-- A reverse map of two levels whose root, block 4, has these pointers. -/
def rootOver (pointers : List ℕ) (b : ℕ) : Except Error (List UInt8) :=
  .ok (if b = 4 then
      nodeBytes (fun _ => 0) twoGroups 0 rmapCodec 4 1 (pointers.map fun p => (p, [⟨10, 1, 7, 0⟩]))
    else leafBytes (fun _ => 0) twoGroups 0 rmapCodec 5 [⟨10, 1, 7, 0⟩])

theorem rootOver_one : walkBlocks (fun _ => 0) twoGroups 0 rmapCodec (rootOver [5]) 4 2 =
    .ok ([⟨10, 1, 7, 0⟩], [5, 4]) ∧ [5, 4].Nodup := by
  have h : walkBlocks (fun _ => 0) twoGroups 0 rmapCodec (rootOver [5]) 4 2 =
      .ok ([⟨10, 1, 7, 0⟩], [5, 4]) := by decide +kernel
  exact ⟨h, (walkBlocks_nodup_iff (by decide) h).1.mpr (by decide +kernel)⟩

/-- Two pointers to one leaf: the walk takes them, and answers with the leaf twice. -/
theorem rootOver_twice : walkBlocks (fun _ => 0) twoGroups 0 rmapCodec (rootOver [5, 5]) 4 2 =
    .ok ([⟨10, 1, 7, 0⟩, ⟨10, 1, 7, 0⟩], [5, 5, 4]) := by
  decide +kernel

end FsXfs.Group
