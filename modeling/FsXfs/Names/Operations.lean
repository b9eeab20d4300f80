import FsXfs.Names.Directory
import FsXfs.Inode.Chunk
import Mathlib.Data.Finset.Basic

/-!
# The operations on names

`create.rs`, `rename.rs`, `unlink.rs` and `rename_in_directory`, as what they do to the inodes they
log: the entries of directories, link counts, and which inodes the inode trees mark free. What else
an operation needs of the driver, blocks, attribute forks, quota and a place in the log, can refuse
it; `Answers` says what it was answered. An operation that is refused writes nothing.
-/

namespace FsXfs.Names

set_option autoImplicit false

structure Slot where
  free : Bool
  core : Core

/-- The inodes of a volume: the numbers its chunks hold, and what is in each. -/
structure State where
  inos : Finset ℕ
  slot : ℕ → Slot

/-- What one operation is answered by the rest of the driver. -/
structure Answers (s : State) where
  writable : Except Error Unit
  read : ℕ → Except Error Unit
  -- laying a directory out: its new format, and whether in node form
  layOut : ℕ → Directory → Except Error (Format × Bool)
  -- a free inode of the parent's group, or a new chunk: that its numbers are new, `create` gets from
  -- `take_aligned`, which gives blocks of the free space tree, where a chunk's are not; of a chunk there
  -- already it compares the first number only (`FsXfs.chooseSlot`)
  choose : Except Error (ℕ ⊕ {start : ℕ // ∀ k < inodesPerChunk, start + k ∉ s.inos})
  inline : Bool
  -- extents and attribute blocks freed, parent pointers, quota, the record
  rest : Except Error Unit

def Format.shown : Format → String
  | .dev => "Dev"
  | .local_ => "Local"
  | .extents => "Extents"
  | .btree => "Btree"
  | .uuid => "Uuid"
  | .rmap => "Rmap"

namespace State

def core (s : State) (ino : ℕ) : Core :=
  (s.slot ino).core

def put (s : State) (ino : ℕ) (slot : Slot) : State :=
  { s with slot := Function.update s.slot ino slot }

def setCore (s : State) (ino : ℕ) (core : Core) : State :=
  s.put ino { s.slot ino with core := core }

section

variable (s : State) (answers : Answers s)

def readInode (ino : ℕ) : Except Error Core := do
  answers.read ino
  ensure (ino ∈ s.inos) (.badSuperblock s!"inode {ino}: not an inode")
  pure (s.core ino)

def checkForm (what : String) (ino : ℕ) (dir : Core) : Except Error Unit :=
  ensure (dir.format = .local_ ∨ dir.format = .extents ∨ dir.format = .btree)
    (.unsupportedFeature s!"inode {ino} keeps its entries in {Format.shown dir.format} form, which {what} does not understand")

def changeDirectory (what : String) (ino : ℕ) (dir : Core) (edits : List DirEdit) :
    Except Error Core := do
  checkForm what ino dir
  let names ← edits.foldlM dir.edit dir.names
  let (format, nodeForm) ← answers.layOut ino names
  pure { dir with names := names, format := format, nodeForm := nodeForm }

-- `entry_ino`, which never finds `.` or `..`
def entryIno (dir : Core) (name : List UInt8) : Option ℕ :=
  if name = dot ∨ name = dotDot then none else (dir.names.find name).map Entry.ino

/-! ## Inodes taken and given back -/

def freedInodeItems (sb : Superblock) (ino : ℕ) : Except Error Unit := do
  ensure (ino ∈ s.inos)
    (.corruptLog s!"inode {ino} is in no chunk of allocation group {(sb.splitIno ino).1}'s inode tree")
  ensure ((s.slot ino).free = false) (.corruptLog s!"inode {ino} is already free")

def freeIf (sb : Superblock) (freed : Bool) (ino : ℕ) : Except Error Unit :=
  if freed then s.freedInodeItems sb ino else .ok ()

def emptiedCore (core : Core) : Core :=
  { core with mode := 0, nlink := 0, format := .extents }

def emptied (core : Core) : Slot :=
  ⟨true, emptiedCore core⟩

def blankCore : Core :=
  ⟨0, 0, .dev, false, ⟨0, []⟩⟩

def addChunk (start : ℕ) : State where
  inos := s.inos ∪ (Finset.range inodesPerChunk).image (start + ·)
  slot := fun ino => if start ≤ ino ∧ ino < start + inodesPerChunk then ⟨true, blankCore⟩ else s.slot ino

def takeInode : Except Error (State × ℕ) := do
  match ← answers.choose with
  | .inl ino => do
    ensure (ino ∈ s.inos ∧ (s.slot ino).free = true)
      (.corruptLog s!"inode {ino} is already in use")
    ensure ((s.core ino).mode = 0)
      (.badSuperblock s!"inode {ino}: the inode trees say it is free, but its slot holds mode {(s.core ino).mode}; creating over it would replace a file that is still there")
    pure (s, ino)
  | .inr start => pure (s.addChunk start.val, start.val)

/-! ## Create -/

-- `Kind::parent_nlink`, on a 32-bit count
def parentNlink (kind : Kind) (was : ℕ) : ℕ :=
  match kind with
  | .file | .symlink => was
  | .directory => (was + 1) % 2 ^ 32

def checkKindTarget (kind : Kind) (target : List UInt8) : Except Error Unit :=
  if kind = .symlink then checkTarget target else .ok ()

def createdFormat (kind : Kind) (inline : Bool) : Format :=
  if kind = .symlink ∧ inline = false then .extents else kind.format

def createdNames (parent : ℕ) : Kind → Directory
  | .directory => ⟨parent, []⟩
  | _ => ⟨0, []⟩

def create (sb : Superblock) (parent : ℕ) (name : List UInt8) (mode : ℕ) (kind : Kind)
    (target : List UInt8) : Except Error State := do
  answers.writable
  ensure sb.isV5
    (.unsupportedFeature "creating writes v5 metadata; a v4 filesystem is not supported")
  ensure (entryNameIsValid name)
    (.unsupportedFeature s!"{repr name} is not a name a directory entry can hold")
  let mode ← typedMode mode kind
  checkKindTarget kind target
  let dir ← s.readInode answers parent
  ensure dir.isDir .notADirectory
  checkForm "adding an entry here" parent dir
  ensure (dir.format = .local_ → dir.names.has name = false) .alreadyExists
  let (s', ino) ← s.takeInode answers
  let change ← s.changeDirectory answers "adding an entry here" parent dir [.add ⟨name, ino⟩]
  answers.rest
  pure ((s'.setCore parent { change with nlink := parentNlink kind dir.nlink }).put ino
    ⟨false, ⟨mode, kind.nlink, createdFormat kind answers.inline, false, createdNames parent kind⟩⟩)

/-! ## Link -/

def link (sb : Superblock) (ino dirIno : ℕ) (name : List UInt8) : Except Error State := do
  answers.writable
  ensure sb.isV5
    (.unsupportedFeature "linking writes v5 metadata; a v4 filesystem is not supported")
  ensure (entryNameIsValid name)
    (.unsupportedFeature s!"{repr name} is not a name a directory entry can hold")
  let dir ← s.readInode answers dirIno
  ensure dir.isDir .notADirectory
  let inode ← s.readInode answers ino
  ensure (inode.isDir = false)
    (.unsupportedFeature s!"inode {ino} is a directory, which has one name and cannot be given another")
  ensure (inode.nlink ≠ 0) .notFound
  ensure (inode.nlink < 2 ^ 31 - 1)
    (.unsupportedFeature s!"inode {ino} already has {inode.nlink} links, the most it may have")
  ensure (entryIno dir name = none) .alreadyExists
  let change ← s.changeDirectory answers "a rename" dirIno dir [.add ⟨name, ino⟩]
  answers.rest
  pure ((s.setCore dirIno change).setCore ino { inode with nlink := inode.nlink + 1 })

/-! ## Remove -/

inductive Target where
  | file | directory
  deriving DecidableEq, Repr

def checkVictim (ino : ℕ) (victim : Core) : Target → Except Error Unit
  | .file =>
    ensure (victim.isDir = false)
      (.unsupportedFeature s!"inode {ino} is a directory; remove_directory removes one, and unlink_file only a regular file")
  | .directory => do
    ensure victim.isDir .notADirectory
    ensure (victim.names.entries = []) .directoryNotEmpty
    ensure (victim.nlink = 2)
      (.unsupportedFeature s!"empty directory inode {ino} has {victim.nlink} links, not the 2 its own `.` and its parent's entry make")

def parentAfter (parent was : ℕ) : Target → Except Error ℕ
  | .file => .ok was
  | .directory => do
    ensure (3 ≤ was)
      (.unsupportedFeature s!"directory inode {parent} has {was} links, too few to hold a subdirectory's `..`")
    pure (was - 1)

def unlinked (freed : Bool) (slot : Slot) (core : Core) : Slot :=
  if freed then emptied core else { slot with core := { core with nlink := core.nlink - 1 } }

def remove (sb : Superblock) (parent : ℕ) (name : List UInt8) (target : Target) :
    Except Error State := do
  answers.writable
  ensure sb.isV5
    (.unsupportedFeature "removing writes v5 metadata; a v4 filesystem is not supported")
  let dir ← s.readInode answers parent
  ensure dir.isDir .notADirectory
  checkForm "removing an entry here" parent dir
  let ino ← orElse (entryIno dir name) .notFound
  let victim ← s.readInode answers ino
  checkVictim ino victim target
  let freed := decide (target = .directory ∨ victim.nlink ≤ 1)
  ensure (freed = true → victim.format ≠ .btree)
    (.unsupportedFeature s!"inode {ino} keeps its extents in a B+tree, which freeing it here does not undo")
  s.freeIf sb freed ino
  let change ← s.changeDirectory answers "removing an entry here" parent dir [.remove name]
  let nlink ← parentAfter parent dir.nlink target
  answers.rest
  let s' := s.setCore parent { change with nlink := nlink }
  pure (s'.put ino (unlinked freed (s'.slot ino) victim))

/-! ## Rename -/

def renameInDirectory (sb : Superblock) (dirIno : ℕ) (from_ to_ : List UInt8) :
    Except Error State := do
  answers.writable
  ensure sb.isV5
    (.unsupportedFeature "renaming writes v5 metadata; a v4 filesystem is not supported")
  ensure (entryNameIsValid to_)
    (.unsupportedFeature s!"{repr to_} ({to_.length} bytes) is not a name a directory entry can hold")
  let dir ← s.readInode answers dirIno
  ensure dir.isDir .notADirectory
  if dir.format = .local_ then do
    ensure (dir.names.has to_ = false) .alreadyExists
    let found ← orElse (dir.names.find from_) .notFound
    let names := { dir.names with entries := dir.names.without from_ ++ [⟨to_, found.ino⟩] }
    let (format, nodeForm) ← answers.layOut dirIno names
    let moved ← s.readInode answers found.ino
    answers.rest
    pure ((s.setCore dirIno { dir with names := names, format := format, nodeForm := nodeForm }).setCore
      found.ino moved)
  else do
    let change ← s.changeDirectory answers "renaming in" dirIno dir [.rename from_ to_]
    -- `lookup`, which does not find `.` or `..`
    let ino ← orElse (entryIno dir from_) .notFound
    let moved ← s.readInode answers ino
    answers.rest
    pure ((s.setCore dirIno change).setCore ino moved)

def checkReplaced (isDir : Bool) (victim : Core) : Except Error Unit :=
  match isDir, victim.isDir with
  | false, true => .error .notAFile
  | true, false => .error .notADirectory
  | true, true => ensure (victim.names.entries = []) .directoryNotEmpty
  | false, false => .ok ()

def replacedCore (isDir : Bool) : Option ℕ → Except Error (Option (ℕ × Core))
  | none => .ok none
  | some t => do
    let victim ← s.readInode answers t
    checkReplaced isDir victim
    pure (some (t, victim))

def victimFreed (victim : Core) : Bool :=
  victim.isDir || decide (victim.nlink ≤ 1)

-- up from the target to the root: the moved directory must not be on the way
def walkUp (root moved toDir : ℕ) : ℕ → ℕ → Except Error Unit
  | steps, at_ =>
    if at_ = root then .ok ()
    else if at_ = moved then
      .error (.unsupportedFeature s!"directory inode {moved} cannot be moved beneath itself")
    else do
      let d ← s.readInode answers at_
      match steps with
      | 0 => .error (.unsupportedFeature s!"the path up from inode {toDir} does not reach the root")
      | steps + 1 => walkUp root moved toDir steps d.names.parent

def refuseBeneath (root fromDir toDir moved : ℕ) (isDir : Bool) : Except Error Unit :=
  if isDir = true ∧ fromDir ≠ toDir then s.walkUp answers root moved toDir (2 ^ 16) toDir else .ok ()

-- a 32-bit count moved, by `checked_add_signed`
def linkBy (was : ℕ) (delta : ℤ) : Except Error ℕ :=
  if delta = 0 then .ok was
  else do
    ensure (0 ≤ (was : ℤ) + delta ∧ (was : ℤ) + delta < 2 ^ 32)
      (.unsupportedFeature s!"a link count of {was} cannot move by {delta}")
    pure ((was : ℤ) + delta).toNat

def ofBool (b : Bool) : ℤ :=
  if b then 1 else 0

def refuseBtreeVictim : Option (ℕ × Core) → Except Error Unit
  | none => .ok ()
  | some (ino, victim) =>
    ensure (victimFreed victim = true → victim.format ≠ .btree)
      (.unsupportedFeature s!"inode {ino} keeps its extents in a B+tree, which freeing it with a rename does not undo")

def freeVictim (sb : Superblock) : Option (ℕ × Core) → Except Error Unit
  | none => .ok ()
  | some (ino, victim) => s.freeIf sb (victimFreed victim) ino

def putVictim (s : State) : Option (ℕ × Core) → State
  | none => s
  | some (ino, victim) => s.put ino (unlinked (victimFreed victim) (s.slot ino) victim)

def changes (fromDir toDir moved : ℕ) (src dst movedCore : Core) (from_ to_ : List UInt8)
    (replaces : Bool) : Except Error (Core × Option Core × Core) := do
  let arriving := DirEdit.add ⟨to_, moved⟩
  if fromDir = toDir then do
    let change ← s.changeDirectory answers "a rename" fromDir src [.remove from_, .remove to_, arriving]
    pure (change, none, movedCore)
  else do
    let srcChange ← s.changeDirectory answers "a rename" fromDir src [.remove from_]
    let dstChange ← s.changeDirectory answers "a rename" toDir dst
      (if replaces then [.remove to_, arriving] else [arriving])
    if movedCore.isDir then do
      let movedChange ← s.changeDirectory answers "a rename" moved movedCore [.reparent toDir]
      pure (srcChange, some dstChange, movedChange)
    else pure (srcChange, some dstChange, movedCore)

def putDst (s : State) (toDir : ℕ) (nlink : ℕ) : Option Core → State
  | none => s
  | some change => s.setCore toDir { change with nlink := nlink }

def dstLinks (was : ℕ) (delta : ℤ) : Option Core → Except Error ℕ
  | none => .ok was
  | some _ => linkBy was delta

def rename (sb : Superblock) (fromDir : ℕ) (from_ : List UInt8) (toDir : ℕ) (to_ : List UInt8) :
    Except Error State := do
  answers.writable
  ensure sb.isV5
    (.unsupportedFeature "renaming writes v5 metadata; a v4 filesystem is not supported")
  ensure (entryNameIsValid to_ ∧ from_ ≠ dot ∧ from_ ≠ dotDot)
    (.unsupportedFeature s!"{repr from_} cannot be moved to {repr to_}")
  let src ← s.readInode answers fromDir
  let dst ← s.readInode answers toDir
  ensure (src.isDir ∧ dst.isDir) .notADirectory
  let moved ← orElse (entryIno src from_) .notFound
  let target := entryIno dst to_
  if fromDir = toDir ∧ target = none then s.renameInDirectory answers sb fromDir from_ to_
  else if target = some moved then pure s
  else do
    let movedCore ← s.readInode answers moved
    let victim ← s.replacedCore answers movedCore.isDir target
    refuseBtreeVictim victim
    s.refuseBeneath answers sb.rootino fromDir toDir moved movedCore.isDir
    let (srcChange, dstChange, movedChange) ←
      s.changes answers fromDir toDir moved src dst movedCore from_ to_ target.isSome
    s.freeVictim sb victim
    let victimDir := victim.any fun p => p.2.isDir
    let sameDir := decide (fromDir = toDir)
    let srcLinks ← linkBy src.nlink
      (-ofBool (movedCore.isDir && !sameDir) - ofBool (sameDir && victimDir))
    let toLinks ← dstLinks dst.nlink (ofBool movedCore.isDir - ofBool victimDir) dstChange
    answers.rest
    let s' := s.setCore fromDir { srcChange with nlink := srcLinks }
    let s' := putDst s' toDir toLinks dstChange
    let s' := s'.setCore moved movedChange
    pure (putVictim s' victim)

end

end State

end FsXfs.Names
