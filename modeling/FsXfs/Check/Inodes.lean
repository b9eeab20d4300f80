import FsXfs.Check.Checker
import FsXfs.Directory.Listing

/-!
# Checking the inodes and the tree

The second part of `check.rs`: every inode is what the inode trees say, its forks claim their
blocks, and the directories are walked from the root.
-/

namespace FsXfs.Check

open Names Directory

set_option autoImplicit false

namespace Checker

variable (im : Image)

/-! ## Forks -/

def claimTreeBlocks (ino : ℕ) (tree : List ℕ) (c : Checker) : Checker :=
  tree.foldl (fun c b => c.claimFsblocks im b 1 (.extentTree ino)) c

def claimExtent (ino : ℕ) (owner : Owner) (c : Checker) (e : Extent) : Checker :=
  if im.sb.extentInBounds e.startblock e.blockcount then
    c.claimFsblocks im e.startblock e.blockcount owner
  else c.find im .rangeExtent (some (im.sb.splitIno ino).1) (some ino)

def maps : Format → Bool
  | .extents | .btree => true
  | _ => false

def fork (ino : ℕ) (format : Format) (mapped : ForkMap) (owner : Owner) (c : Checker) : Checker :=
  if maps format then
    match mapped with
    | .ok (extents, tree) =>
      extents.foldl (claimExtent im ino owner) (c.claimTreeBlocks im ino tree)
    | .error e => c.failed im .extentUnreadable e (some (im.sb.splitIno ino).1) (some ino)
  else c

def useRealtime (ino : ℕ) (c : Checker) (e : Extent) : Checker :=
  let stop := e.startblock + e.blockcount
  if stop < 2 ^ 64 ∧ 0 < e.blockcount ∧ stop ≤ im.sb.rblocks then
    { c with rtUsed := c.rtUsed ++ [(e.startblock, e.blockcount, ino)] }
  else c.find im .rtExtent (some (im.sb.splitIno ino).1) (some ino)

def realtimeFork (ino : ℕ) (format : Format) (mapped : ForkMap) (c : Checker) : Checker :=
  if maps format then
    match mapped with
    | .ok (extents, tree) =>
      extents.foldl (useRealtime im ino) (c.claimTreeBlocks im ino tree)
    | .error e => c.failed im .extentUnreadable e (some (im.sb.splitIno ino).1) (some ino)
  else c

def blocksOf (ino : ℕ) (inode : Inode) (c : Checker) : Checker :=
  let c := if inode.realtime then c.realtimeFork im ino inode.format inode.data
    else c.fork im ino inode.format inode.data (.data ino)
  match inode.attr with
  | none => c
  | some (format, mapped) => c.fork im ino format mapped (.attr ino)

/-! ## Allocated and free inodes -/

def countInode (c : Checker) : Checker :=
  { c with walkedInodes := c.walkedInodes + 1 }

def unknown (c : Checker) (ino : ℕ) : Bool :=
  decide ((im.sb.splitIno ino).1 ∈ c.inodesUnlisted) && decide (ino ∉ c.allocated) &&
    decide (ino ∉ c.free)

/-- An inode that nothing says is allocated, read on its own: whether the walk can go through it. -/
def adopt (s : Checker × List (ℕ × Inode)) (ino : ℕ) : (Checker × List (ℕ × Inode)) × Bool :=
  if (s.2.lookup ino).isSome then (s, true)
  else if s.1.unknown im ino then
    match im.readInodeRaw ino with
    | .ok inode =>
      if inode.mode ≠ 0 then ((s.1.countInode.blocksOf im ino inode, s.2 ++ [(ino, inode)]), true)
      else (s, false)
    | .error _ => (s, false)
  else (s, false)

end Checker

/-! ## Directories -/

section

variable (im : Image)

def dataExtents (ino : ℕ) (inode : Inode) : Except Error (List Extent) := do
  ensure (inode.realtime = false)
    (.unsupportedFeature s!"inode {ino} keeps its data on the real-time device")
  ensure (Checker.maps inode.format = true)
    (.unsupportedFeature s!"inode {ino} has a data fork that holds no extents")
  let (extents, _) ← inode.data
  Filesystem.checkExtentsInBounds im.sb.toSuperblock ino extents
  return extents

def tolerated (inode : Inode) : Tolerated :=
  match inode.format, inode.shortForm with
  | .local_, .ok (_, t) => t
  | _, _ => { types := [], parent := false }

def listing (ino : ℕ) (inode : Inode) : Except Error (List DirEntry) :=
  if inode.format = .local_ then inode.shortForm.map fun p => p.1.entries
  else do
    let extents ← dataExtents im ino inode
    let entries ← readDir im.crc32c im.sb.toSuperblock im.device ino extents
    everyDataBlockParses im.sb.toSuperblock im.device ino extents
    return entries

structure Walk where
  checker : Checker
  usable : List (ℕ × Inode)
  links : ℕ → ℕ
  subdirs : ℕ → ℕ
  reached : List ℕ
  unlisted : Bool
  stack : List ℕ

namespace Walk

def follow (dir : ℕ) (e : DirEntry) (target : Inode) (w : Walk) : Walk :=
  let w := { w with links := Function.update w.links e.ino (w.links e.ino + 1) }
  let w := if im.sb.hasFtype ∧ e.ftype ≠ none ∧ e.ftype ≠ target.fileType then
      { w with checker := w.checker.find im .dirEntryFtype none (some dir) }
    else w
  if target.isDir then
    let w := { w with subdirs := Function.update w.subdirs dir (w.subdirs dir + 1) }
    if e.ino ∈ w.reached then
      { w with checker := w.checker.find im .dirReachedTwice none (some e.ino) }
    else { w with reached := e.ino :: w.reached, stack := e.ino :: w.stack }
  else { w with reached := w.reached.insert e.ino }

def target (dir : ℕ) (e : DirEntry) (w : Walk) : Walk :=
  match w.usable.lookup e.ino with
  | none => { w with checker := w.checker.find im .dirEntryTarget none (some dir) }
  | some target => follow im dir e target w

def entry (dir : ℕ) (w : Walk) (e : DirEntry) : Walk :=
  if w.checker.unknown im e.ino then
    match Checker.adopt im (w.checker, w.usable) e.ino with
    | ((_, _), false) =>
      if e.ftype = none ∨ e.ftype = some .directory then { w with unlisted := true } else w
    | ((c, usable), true) => target im dir e { w with checker := c, usable := usable }
  else target im dir e w

def findTolerated (dir : ℕ) (t : Tolerated) (c : Checker) : Checker :=
  let c := if t.parent then c.find im .dirUnreadable none (some dir) else c
  t.types.foldl (fun c _ => c.find im .dirEntryFtype none (some dir)) c

def countDirectory (c : Checker) : Checker :=
  { c with walkedDirectories := c.walkedDirectories + 1 }

def list (dir : ℕ) (inode : Inode) (w : Walk) : Walk :=
  let c := findTolerated im dir (tolerated inode) (countDirectory w.checker)
  match listing im dir inode with
  | .error e =>
    { w with checker := c.failed im .dirUnreadable e none (some dir), unlisted := true }
  | .ok entries => entries.foldl (entry im dir) { w with checker := c }

/-- One directory off the stack. -/
def visit (w : Walk) (dir : ℕ) : Walk :=
  match w.usable.lookup dir with
  | none => w
  | some inode =>
    if inode.isDir then list im dir inode w
    else { w with checker := w.checker.find im .dirNotADirectory none (some dir) }

end Walk

/-! ## The pass -/

namespace Checker

def start : Checker where
  found := []
  walkedInodes := 0
  walkedDirectories := 0
  owners := fun _ _ => .unclaimed
  shared := fun _ _ => false
  allocated := []
  free := []
  rtUsed := []
  claimed := fun _ => []
  inodesUnlisted := []

def startWalk (s : Checker × List (ℕ × Inode)) : Walk where
  checker := s.1
  usable := s.2
  links := fun _ => 0
  subdirs := fun _ => 0
  reached := [im.sb.rootino]
  unlisted := false
  stack := [im.sb.rootino]

end Checker

end

end FsXfs.Check
