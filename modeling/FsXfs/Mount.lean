import FsXfs.Log.Chain
import FsXfs.Lib.StateProg

/-!
# A writable mount

The state of `fs::Filesystem` that writing touches, and `commit_record`, `sync` and the log appends
as programs over it. Every write the device is asked for is an `Event` of the mount's `trace`, in
order, and the disk at any moment is what the events so far make of the disk the mount began with.
The device is an oracle: `outcome` and `flushes` say what it does with the next write or flush.
A program that fails keeps the state it reached, as the source does: only an explicit assignment
undoes anything. A panic unwinds past `or_stop_writing`, which sees only returned errors.
-/

namespace FsXfs

open Log

set_option autoImplicit false

/-! ## Device writes -/

inductive Event where
  | log (r : LogRecord)
  | home (bb : ℕ) (sector : Sector)
  | data (at_ : ℕ) (bytes : List UInt8)
  | returned (lsn : ℕ) (items : List Item)

namespace Event

def sectorPatch (bb : ℕ) (sector : Sector) : Redo.Patch ℕ UInt8 := fun a =>
  if a / 512 = bb then some (sector (a % 512)) else none

def apply (d : Disk) : Event → Disk
  | .log r => { d with ring := Ring.writeRecord d.ring r }
  | .home bb sector => { d with home := Redo.apply (sectorPatch bb sector) d.home }
  | .data at_ bytes => { d with home := Redo.apply (chunkPatch at_ bytes) d.home }
  | .returned _ _ => d

def record? : Event → Option LogRecord
  | .log r => some r
  | _ => none

def journal : Event → Bool
  | .log _ => true
  | .home _ _ => true
  | _ => false

def returned? : Event → Option (ℕ × List Item)
  | .returned lsn items => some (lsn, items)
  | _ => none

end Event

/-- What the device does with a write: takes it, fails it, or fails it after it has landed. -/
inductive Outcome where
  | done
  | lost
  | landed
  deriving DecidableEq, Repr

structure Mount where
  sb : Superblock
  writable : Bool
  base : Disk
  trace : List Event
  outcome : ℕ → Outcome
  flushes : ℕ → Bool
  crc32c : List UInt8 → ℕ
  overlay : Overlay
  oldestRecord : Option ℕ
  nextHead : Option Head
  wraps : ℕ
  loggedAnything : Bool
  writeFailed : Bool

namespace Mount

def fresh (sb : Superblock) (base : Disk) (crc32c : List UInt8 → ℕ) : Mount where
  sb := sb
  writable := true
  base := base
  trace := []
  outcome := fun _ => .done
  flushes := fun _ => true
  crc32c := crc32c
  overlay := .empty
  oldestRecord := none
  nextHead := none
  wraps := 0
  loggedAnything := false
  writeFailed := false

def disk (m : Mount) : Disk :=
  m.trace.foldl Event.apply m.base

def view (m : Mount) (a : ℕ) : UInt8 :=
  m.overlay.byte m.disk.home a

def emit (m : Mount) (events : List Event) : Mount :=
  { m with trace := m.trace ++ events }

abbrev Prog := EStateM Error Mount

def lift {α : Type} (x : Except Error α) : Prog α :=
  match x with
  | .ok a => pure a
  | .error e => throw e

def write (e : Event) : Prog Unit := fun m =>
  match m.outcome m.trace.length with
  | .done => .ok () (m.emit [e])
  | .lost => .error (.io "the device failed a write") m
  | .landed => .error (.io "the device failed a write") (m.emit [e])

def flush : Prog Unit := fun m =>
  if m.flushes m.trace.length then .ok () m
  else .error (.io "the device failed a flush") m

def writableDevice : Prog Unit := fun m =>
  if m.writeFailed then
    .error (.io "this mount stopped writing after a log write failed; mount the volume again to read what the log holds") m
  else if m.writable then .ok () m
  else .error .readOnly m

def orStopWriting {α : Type} (x : Prog α) : Prog α := fun m =>
  match x m with
  | .ok a m' => .ok a m'
  | .error (.panicked why) m' => .error (.panicked why) m'
  | .error e m' => .error e { m' with writeFailed := true }

/-! ## The push -/

def pushSectors : List (ℕ × Sector) → Prog Unit
  | [] => pure ()
  | (bb, sector) :: rest => do
    write (.home bb sector)
    pushSectors rest

def push : Prog Unit := do
  pushSectors (← get).overlay.pushed
  flush
  modify fun m => { m with overlay := .empty }

def sync : Prog Unit := do
  writableDevice
  orStopWriting push
  modify fun m => { m with oldestRecord := none }

/-! ## Appending records -/

def recordAt (head : Head) (tid : ℕ) (ops : List Op) (tail len : ℕ) : LogRecord where
  block := head.block
  cycle := head.cycle
  prevBlock := head.prevBlock
  tailLsn := tail
  iclogSize := head.iclogSize
  tid := tid
  ops := ops
  len := len

def writeRecord (r : LogRecord) : Prog Unit := do
  let m ← get
  let _ ← lift (encodeRecord m.crc32c m.sb.uuid r)
  write (.log r)
  flush

def appendPad (head : Head) (tid tail : ℕ) : Prog ℕ := do
  let ops := padOps tid
  let want := (head.freeBlocks - 1) * 512
  lift (ensure ((payload tid ops).length ≤ want)
    (.unsupportedFeature s!"the gap at the end of the log is {want} bytes and an empty record needs {(payload tid ops).length}"))
  writeRecord (recordAt head tid ops tail want)
  pure (lsnOf head)

def appendAtWithTail (head : Head) (tid : ℕ) (ops : List Op) (tail : ℕ) : Prog ℕ := do
  let m ← get
  let cap ← lift (maxPayload head.iclogSize)
  lift (ensure ((payload tid ops).length ≤ cap)
    (.unsupportedFeature s!"the checkpoint is {(payload tid ops).length} bytes and the log's records hold at most {cap}; splitting one across records is not implemented"))
  let blocks ← lift (recordBlocksForLog tid ops head.iclogSize m.sb.logsunit)
  lift (ensure (head.block % (logAlignment m.sb.logsunit / 512) = 0)
    (.unsupportedFeature s!"log head block {head.block} is not aligned to the {m.sb.logsunit}-byte log stripe unit"))
  lift (ensure (blocks ≤ head.freeBlocks)
    (.unsupportedFeature s!"the checkpoint needs {blocks} basic blocks and only {head.freeBlocks} remain before the log wraps; writing across the wrap is not implemented"))
  writeRecord (recordAt head tid ops tail ((blocks - 1) * 512))
  pure (lsnOf head)

/-! ## One checkpoint -/

structure Plan where
  head : Head
  tid : ℕ
  groups : List (List Op)
  lengths : List ℕ
  deriving DecidableEq, Repr

def Plan.needed (p : Plan) : ℕ :=
  p.lengths.sum

def Plan.parts (p : Plan) : List (List Op × ℕ) :=
  p.groups.zip p.lengths

def Plan.wraps (p : Plan) : Bool :=
  wrapsFirst p.needed p.head.freeBlocks p.tid

def findHead (m : Mount) : Except Error Head :=
  match m.nextHead with
  | some known => .ok known
  | none => Log.head m.sb m.disk.ring

def plan (m : Mount) (build : ℕ → List Op) : Except Error Plan := do
  let head ← m.findHead
  let tid := transactionId head
  let groups ← splitIntoRecords (build tid) head.iclogSize
  let lengths ← groups.mapM fun group =>
    recordBlocksForLog tid group head.iclogSize m.sb.logsunit
  -- the total is added up in a `u32`
  ensure (lengths.sum < 2 ^ 32)
    (.unsupportedFeature "checkpoint log-space reservation overflows")
  pure ⟨head, tid, groups, lengths⟩

def padGap (p : Plan) : Prog Unit := do
  if 0 < p.head.freeBlocks then
    let tail := (← get).oldestRecord.getD (lsnOf p.head)
    let _ ← orStopWriting (appendPad p.head p.tid tail)

def wrappedHead (head : Head) : Head where
  block := 0
  cycle := head.cycle + 1
  prevBlock := if 0 < head.freeBlocks then head.block else head.prevBlock
  freeBlocks := head.block + head.freeBlocks
  iclogSize := head.iclogSize

def wrapRing (p : Plan) : Prog Head := do
  sync
  padGap p
  lift (ensure (p.head.cycle + 1 < 2 ^ 32)
    (.unsupportedFeature s!"the log is in cycle {p.head.cycle}, and wrapping would need one this log cannot express"))
  modify fun m => { m with wraps := m.wraps + 1 }
  pure (wrappedHead p.head)

def chooseHead (p : Plan) : Prog Head :=
  if p.wraps then wrapRing p else pure p.head

def nextAfter (head : Head) (used : ℕ) : Head :=
  ⟨head.block + used, head.cycle, head.block, head.freeBlocks - used, head.iclogSize⟩

-- the loop over a checkpoint's records: the last one's number and where the next would go
def appendRecords (tid tail : ℕ) : List (List Op × ℕ) → Head → ℕ → Prog (ℕ × Head)
  | [], at_, lsn => pure (lsn, at_)
  | (group, used) :: rest, at_, _ => do
    let lsn ← orStopWriting (appendAtWithTail at_ tid group tail)
    appendRecords tid tail rest (nextAfter at_ used) lsn

def maxDirtyBytes : ℕ := 16 * 1024 * 1024

def commitRecord (build : ℕ → List Op) : Prog ℕ := do
  writableDevice
  let p ← lift ((← get).plan build)
  let head ← chooseHead p
  lift (ensure (p.needed ≤ head.freeBlocks)
    (.unsupportedFeature s!"this checkpoint needs {p.needed} basic blocks and the whole log holds {head.freeBlocks}; a checkpoint larger than the log cannot be written"))
  let tail := (← get).oldestRecord.getD (lsnOf head)
  let (lsn, at_) ← appendRecords p.tid tail p.parts head 0
  modify fun m => { m with
    oldestRecord := some (m.oldestRecord.getD (lsnOf head))
    loggedAnything := true
    nextHead := some at_ }
  if maxDirtyBytes ≤ (← get).overlay.bytes then
    sync
  pure lsn

/-! ## What the caller does with its record's items -/

-- `logged_buffer` and `logged_inode`: the item's image, as the next operation reads it
def loggedItem (m : Mount) (item : Item) : Mount :=
  { m with overlay := m.overlay.wrote m.disk.home item.bb (item.image m.view) }

def loggedItems (m : Mount) (items : List Item) : Mount :=
  items.foldl loggedItem m

end Mount

end FsXfs
