import FsXfs.Extent
import FsXfs.Inode.Core
import FsXfs.Group.Allocations
import FsXfs.Superblock.Addresses

/-!
# Files and their block maps

What the data paths read of a volume: an inode's core, the extents its data fork lists, and the
block-map B+tree a fork with too many extents is the root of (`inode.rs`, `extent.rs`, `bmbt.rs`,
`Filesystem::data_extents`). Inodes and block-map blocks are taken as parsed, each read giving
whatever the image makes it; what a parse guarantees is carried by the types.
-/

namespace FsXfs.File

open FsXfs.Group

set_option autoImplicit false

/-! ## What is read -/

/-- A block of a block map as `parse_block` returns it, its records in order (`parse_list`). -/
inductive Node where
  | leaf (records : List Extent) (sorted : Sorted records)
  | inner (below : ℕ) (pointers : List ℕ)

def Node.level : Node → ℕ
  | .leaf _ _ => 0
  | .inner below _ => below + 1

structure Inode where
  version : ℕ
  regular : Bool
  realtime : Bool
  shared : Bool
  format : Format
  size : ℕ
  nblocks : ℕ
  nextents : ℕ
  nrext64 : Bool
  forkLen : ℕ
  -- the fork read as a list, and as a root: its level less one, and its pointers
  listed : Except Error {extents : List Extent // Sorted extents}
  root : Except Error (ℕ × List ℕ)

structure Volume where
  sb : Superblock
  accepted : sb.Accepted
  crc32c : List UInt8 → ℕ
  device : BlockRead
  writable : Except Error Unit
  loggedAnything : Bool
  -- `incompat::EXCHRANGE` is set
  exchrange : Bool
  inode : ℕ → Except Error Inode
  node : ℕ → ℕ → Except Error Node
  -- whether `quota::accounting_items` can be made for these changes of these inodes' blocks
  charge : List (ℕ × ℤ) → Except Error Unit

namespace Volume

/-! ## The block map -/

section

variable (v : Volume) (ino : ℕ)

def walkFrom : ℕ → List (ℕ × ℕ) → List Extent → List ℕ → Except Error (List Extent × List ℕ)
  | _, [], extents, blocks => .ok (extents, blocks)
  | 0, _ :: _, _, _ =>
    .error (.badSuperblock s!"inode {ino}: bmbt walk visited more blocks than its extents can justify; the tree is cyclic or its extent count is wrong")
  | budget + 1, (fsblock, expectLevel) :: stack, extents, blocks => do
    let node ← v.node ino fsblock
    ensure (node.level = expectLevel)
      (.badSuperblock s!"inode {ino}: bmbt block {fsblock} is at level {node.level}, but its parent points to it as level {expectLevel}")
    match node with
    | .leaf records _ => walkFrom budget stack (extents ++ records) (blocks ++ [fsblock])
    | .inner below pointers =>
      walkFrom budget (pointers.map (fun p => (p, below)) ++ stack) extents (blocks ++ [fsblock])

def walkBudget (nextents : ℕ) : ℕ :=
  max (saturate64 (saturate64 (nextents + 1) * 2)) 64

def walkWithBlocks (inode : Inode) : Except Error (List Extent × List ℕ) := do
  let (below, pointers) ← inode.root
  let (extents, blocks) ← walkFrom v ino (walkBudget inode.nextents)
    (pointers.map fun p => (p, below)) [] []
  ensure (extents.length = inode.nextents)
    (.badSuperblock s!"inode {ino}: bmbt holds {extents.length} extents but the inode records {inode.nextents}")
  pure (extents, blocks)

def forkExtents (inode : Inode) : Except Error (List Extent) :=
  match inode.format with
  | .extents => do
    let extents ← inode.listed
    pure extents.val
  | .btree => do
    let (extents, _) ← v.walkWithBlocks ino inode
    pure extents
  | _ =>
    .error (.unsupportedFeature s!"inode {ino} has a data fork of another format, which holds no extents")

def dataExtents (inode : Inode) : Except Error (List Extent) := do
  ensure (inode.realtime = false)
    (.unsupportedFeature s!"inode {ino} keeps its data on the real-time device")
  let extents ← v.forkExtents ino inode
  Filesystem.checkExtentsInBounds v.sb ino extents
  pure extents

end

theorem dataExtents_spec {v : Volume} {ino : ℕ} {inode : Inode} {extents : List Extent}
    (h : v.dataExtents ino inode = .ok extents) :
    v.forkExtents ino inode = .ok extents ∧ inode.realtime = false ∧
      ∀ e ∈ extents, v.sb.extentInBounds e.startblock e.blockcount = true := by
  simp only [dataExtents, bind_eq_ok, ensure_eq_ok, pure, Except.pure, Except.ok.injEq] at h
  obtain ⟨-, hreal, extents', hfork, u, hcheck, rfl⟩ := h
  exact ⟨hfork, hreal, Filesystem.checkExtentsInBounds_ok hcheck⟩

theorem dataExtents_of {v : Volume} {ino : ℕ} {inode : Inode} {extents : List Extent}
    (hreal : inode.realtime = false) (hfork : v.forkExtents ino inode = .ok extents)
    (hbounds : ∀ e ∈ extents, v.sb.extentInBounds e.startblock e.blockcount = true) :
    v.dataExtents ino inode = .ok extents := by
  have hnone : extents.zipIdx.find? (fun p => !v.sb.extentInBounds p.1.startblock p.1.blockcount) =
      none := by
    refine List.find?_eq_none.mpr fun p hp => ?_
    rw [hbounds p.1 (List.fst_mem_of_mem_zipIdx hp)]
    decide
  have hcheck : Filesystem.checkExtentsInBounds v.sb ino extents = .ok () := by
    rw [Filesystem.checkExtentsInBounds, hnone]
  exact bind_eq_ok.mpr ⟨(), ensure_of hreal, bind_eq_ok.mpr ⟨extents, hfork,
    bind_eq_ok.mpr ⟨(), hcheck, rfl⟩⟩⟩

end Volume

-- the records of a fork are packed, and what they come to is not kept
def checkRecords (extents : List Extent) : Except Error Unit :=
  extents.forM fun e => do
    let _ ← e.toBytes

/-! ## The groups an operation edits -/

-- `ino as i64`
def owner (ino : ℕ) : ℤ :=
  if ino < 2 ^ 63 then ino else (ino : ℤ) - 2 ^ 64

abbrev Groups := List (ℕ × GroupAlloc)

def Groups.put (groups : Groups) (agno : ℕ) (group : GroupAlloc) : Groups :=
  if (groups.lookup agno).isSome then
    groups.map fun p => if p.1 = agno then (agno, group) else p
  else groups ++ [(agno, group)]

namespace Volume

def groupFor (v : Volume) (groups : Groups) (agno : ℕ) : Except Error GroupAlloc :=
  match groups.lookup agno with
  | some group => .ok group
  | none => openGroup v.crc32c v.sb v.device agno

def intoItems (v : Volume) (groups : Groups) : Except Error Unit :=
  groups.forM fun p => do
    let _ ← Group.intoItems v.crc32c v.sb v.device p.2

end Volume

variable {sb : Superblock} {agno : ℕ}

theorem Groups.lookup_put (groups : Groups) (agno k : ℕ) (group : GroupAlloc) :
    (groups.put agno group).lookup k = if k = agno then some group else groups.lookup k := by
  have hmap : ∀ l : Groups, (l.map fun p => if p.1 = agno then (agno, group) else p).lookup k =
      if k = agno then (l.lookup k).map fun _ => group else l.lookup k := by
    intro l
    induction l with
    | nil => simp
    | cons p l ih =>
      obtain ⟨n, g⟩ := p
      by_cases hk : k = n
      · subst hk
        by_cases hn : k = agno
        · subst hn
          simp
        · simp [hn]
      · have hkn : (k == n) = false := by simpa using hk
        by_cases hn : n = agno
        · subst hn
          simp [List.lookup_cons, hk, hkn, ih]
        · simp [List.lookup_cons, hn, hkn, ih]
  unfold Groups.put
  split
  · next hsome =>
    rw [hmap]
    by_cases hk : k = agno
    · subst hk
      obtain ⟨g, hg⟩ := Option.isSome_iff_exists.mp hsome
      simp [hg]
    · simp [hk]
  · next hnone =>
    rw [List.lookup_append]
    by_cases hk : k = agno
    · subst hk
      simp [Option.not_isSome_iff_eq_none.mp hnone]
    · have hne : (k == agno) = false := by simpa using hk
      simp [hk, List.lookup_cons, hne]

-- an extent's reverse-mapping offset, with the flag of an unwritten one
def rmapOffset (e : Extent) : ℕ :=
  if e.unwritten then e.startoff ||| 2 ^ 61 else e.startoff

abbrev DataWrite := ℕ × List UInt8

end FsXfs.File
