import FsXfs.Log.Record
import FsXfs.Overlay

/-!
# The ring of records

The log as its readers see it: for each basic block, which record's which block lies there. `Disk`
is a device with an internal log taken out of it, so that log writes and home writes are told
apart. The functions are `log.rs`: `scan_whole_ring`, `inspect`, `head` and the sizes they check.
-/

namespace FsXfs.Log

set_option autoImplicit false

abbrev Ring := ℕ → Option (LogRecord × ℕ)

structure Disk where
  ring : Ring
  home : ℕ → UInt8

def Disk.blank : Disk where
  ring := fun _ => none
  home := fun _ => 0

namespace Ring

def writeRecord (ring : Ring) (r : LogRecord) : Ring := fun b =>
  if r.block ≤ b ∧ b < r.block + r.blocks then some (r, b - r.block) else ring b

def Complete (ring : Ring) (r : LogRecord) : Prop :=
  ∀ k < r.blocks, ring (r.block + k) = some (r, k)

instance (ring : Ring) (r : LogRecord) : Decidable (ring.Complete r) :=
  inferInstanceAs (Decidable (∀ k < r.blocks, ring (r.block + k) = some (r, k)))

end Ring

/-! ## The newest record -/

def outranks (newest : Option (ℕ × LogRecord)) (r : LogRecord) : Bool :=
  match newest with
  | some (_, n) => decide (r.lsn ≤ n.lsn)
  | none => false

def scanStep (ring : Ring) (newest : Option (ℕ × LogRecord)) (bb : ℕ) : Option (ℕ × LogRecord) :=
  match ring bb with
  | some (r, 0) => if outranks newest r then newest else some (bb, r)
  | _ => newest

def scanWholeRing (ring : Ring) (total : ℕ) : Option (ℕ × LogRecord) :=
  (List.range total).foldl (scanStep ring) none

/-! ## What the log says about how the volume was left -/

inductive LogState where
  | empty
  | cleanlyUnmounted
  | needsReplay
  deriving DecidableEq, Repr

-- the newest record is one operation, flagged as an unmount, inside the ring
def inspect (ring : Ring) (total : ℕ) : LogState :=
  match scanWholeRing ring total with
  | none => .empty
  | some (bb, r) =>
    if r.ops.length ≠ 1 then .needsReplay
    else if total < bb + r.headerBlocks + 1 then .needsReplay
    else if r.ops.all Op.isUnmount then .cleanlyUnmounted
    else .needsReplay

/-! ## The head -/

-- `log::extent`: the log's length in bytes
def extent (sb : Superblock) : Except Error ℕ := do
  ensure (sb.hasInternalLog = true)
    (.unsupportedFeature "the log is on a separate device, so this driver cannot address it")
  ensure (sb.logblocks * sb.blocksize ≠ 0)
    (.badSuperblock "superblock places an internal log of zero length")
  pure (sb.logblocks * sb.blocksize)

def ringBlocks (logBytes : ℕ) : ℕ :=
  logBytes / 512 % 2 ^ 32

def iclogSizeFits (iclogSize logBytes : ℕ) : Prop :=
  iclogSize.isPowerOfTwo ∧ 512 ≤ iclogSize ∧ iclogSize ≤ logBytes

instance (iclogSize logBytes : ℕ) : Decidable (iclogSizeFits iclogSize logBytes) :=
  inferInstanceAs (Decidable (_ ∧ _ ∧ _))

def defaultIclogSize (logBytes : ℕ) : Except Error ℕ :=
  let capped := min 32768 logBytes
  let size := if capped = 0 then 0 else 2 ^ capped.log2
  if iclogSizeFits size logBytes then
    .ok size
  else
    .error (.badSuperblock s!"the log is {logBytes} bytes, which cannot hold an in-core buffer of even the 512 bytes one basic block requires")

def head (sb : Superblock) (ring : Ring) : Except Error Head := do
  let logBytes ← extent sb
  let total := ringBlocks logBytes
  match scanWholeRing ring total with
  | none => do
    let iclogSize ← defaultIclogSize logBytes
    pure ⟨0, 1, 2 ^ 32 - 1, total, iclogSize⟩
  | some (bb, newest) => do
    let cycle := newest.lsn / 2 ^ 32 % 2 ^ 32
    ensure (iclogSizeFits newest.iclogSize logBytes)
      (.corruptLog s!"the newest log record says its in-core buffers are {newest.iclogSize} bytes, which              is not a power of two between 512 and the log's own {logBytes}")
    let next := bb + newest.blocks
    ensure (next ≤ total)
      (.corruptLog s!"the newest log record starts at block {bb} and claims {newest.headerBlocks} header blocks and {newest.len} bytes, which ends past the {total}-block ring")
    if next = total then do
      ensure (cycle + 1 < 2 ^ 32)
        (.corruptLog s!"the newest log record is in cycle {cycle}, and the next record would wrap                  to a cycle this log cannot express")
      pure ⟨0, cycle + 1, bb, total, newest.iclogSize⟩
    else
      pure ⟨next, cycle, bb, total - next, newest.iclogSize⟩

/-! ## What the scan returns -/

def ScanHolds (ring : Ring) (n : ℕ) : Option (ℕ × LogRecord) → Prop
  | none => ∀ b < n, ∀ r, ring b ≠ some (r, 0)
  | some (bb, r) => bb < n ∧ ring bb = some (r, 0) ∧
      ∀ b < n, ∀ r', ring b = some (r', 0) → r'.lsn ≤ r.lsn

variable {newest : Option (ℕ × LogRecord)} {ring : Ring} {bb total : ℕ} {r : LogRecord}

theorem scanStep_of_not_header
    (h : ∀ r, ring bb ≠ some (r, 0)) : scanStep ring newest bb = newest := by
  unfold scanStep
  split
  · next r hr => exact absurd hr (h r)
  · rfl

theorem scanStep_of_header
    (h : ring bb = some (r, 0)) :
    scanStep ring newest bb = if outranks newest r then newest else some (bb, r) := by
  simp only [scanStep, h]

theorem ring_header_inj {b : ℕ} {r r' : LogRecord} (h : ring b = some (r, 0))
    (h' : ring b = some (r', 0)) : r = r' :=
  (Prod.mk.inj (Option.some.inj (h.symm.trans h'))).1

theorem scanStep_holds {n : ℕ}
    (ih : ScanHolds ring n newest) : ScanHolds ring (n + 1) (scanStep ring newest n) := by
  by_cases hhdr : ∃ r, ring n = some (r, 0)
  · obtain ⟨r, hr⟩ := hhdr
    rw [scanStep_of_header hr]
    cases newest with
    | none =>
      refine ⟨Nat.lt_succ_self n, hr, Nat.forall_lt_succ_right.mpr ⟨?_, ?_⟩⟩
      · intro b hb r' hr'
        exact absurd hr' (ih b hb r')
      · intro r' hr'
        rw [ring_header_inj hr hr']
    | some found =>
      obtain ⟨bb, m⟩ := found
      obtain ⟨hbb, hring, hmax⟩ := ih
      by_cases hle : r.lsn ≤ m.lsn
      · simp only [outranks, hle, decide_true, if_true]
        refine ⟨by omega, hring, Nat.forall_lt_succ_right.mpr ⟨hmax, ?_⟩⟩
        intro r' hr'
        rw [← ring_header_inj hr hr']
        exact hle
      · simp only [outranks, hle, decide_false, Bool.false_eq_true, if_false]
        refine ⟨by omega, hr, Nat.forall_lt_succ_right.mpr ⟨?_, ?_⟩⟩
        · intro b hb r' hr'
          have := hmax b hb r' hr'
          omega
        · intro r' hr'
          rw [ring_header_inj hr hr']
  · have hno : ∀ r, ring n ≠ some (r, 0) := fun r hr => hhdr ⟨r, hr⟩
    rw [scanStep_of_not_header hno]
    cases newest with
    | none => exact Nat.forall_lt_succ_right.mpr ⟨ih, hno⟩
    | some found =>
      obtain ⟨hbb, hring, hmax⟩ := ih
      refine ⟨by omega, hring, Nat.forall_lt_succ_right.mpr ⟨hmax, ?_⟩⟩
      intro r' hr'
      exact absurd hr' (hno r')

theorem scan_holds (ring : Ring) (n : ℕ) :
    ScanHolds ring n ((List.range n).foldl (scanStep ring) none) := by
  induction n with
  | zero => intro b hb; omega
  | succ n ih =>
    rw [List.range_succ, List.foldl_append, List.foldl_cons, List.foldl_nil]
    exact scanStep_holds ih

theorem scanWholeRing_some
    (h : scanWholeRing ring total = some (bb, r)) :
    bb < total ∧ ring bb = some (r, 0) ∧
      ∀ b < total, ∀ r', ring b = some (r', 0) → r'.lsn ≤ r.lsn := by
  have hp := scan_holds ring total
  rw [scanWholeRing] at h
  rwa [h] at hp

theorem scanWholeRing_none (h : scanWholeRing ring total = none) :
    ∀ b < total, ∀ r, ring b ≠ some (r, 0) := by
  have hp := scan_holds ring total
  rw [scanWholeRing] at h
  rwa [h] at hp

theorem scanWholeRing_blank (total : ℕ) : scanWholeRing Disk.blank.ring total = none := by
  cases h : scanWholeRing Disk.blank.ring total with
  | none => rfl
  | some found => cases (scanWholeRing_some h).2.1

theorem scanWholeRing_eq (hbb : bb < total)
    (hr : ring bb = some (r, 0))
    (hmax : ∀ b < total, b ≠ bb → ∀ r', ring b = some (r', 0) → r'.lsn < r.lsn) :
    scanWholeRing ring total = some (bb, r) := by
  cases h : scanWholeRing ring total with
  | none => exact absurd hr (scanWholeRing_none h bb hbb r)
  | some found =>
    obtain ⟨b, n⟩ := found
    obtain ⟨hb, hn, hge⟩ := scanWholeRing_some h
    have hsame : b = bb := by
      by_contra hne
      have h1 := hmax b hb hne n hn
      have h2 := hge bb hbb r hr
      omega
    subst hsame
    rw [hn] at hr
    rw [(Prod.mk.inj (Option.some.inj hr)).1]

end FsXfs.Log
