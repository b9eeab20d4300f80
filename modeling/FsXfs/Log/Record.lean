import FsXfs.Superblock
import Mathlib.Tactic.Set

/-!
# Log records

The pure part of `log_write.rs`: operations and the payload they make, how a checkpoint is divided
into records, how many basic blocks a record takes, and the bytes `encode_record` lays down. A
checkpoint is a sequence of records that share a transaction id. One header block describes at
most 64 payload blocks, and `encode_record` asserts it.
-/

namespace FsXfs.Log

open Bytes

set_option autoImplicit false

/-! ## Constants -/

abbrev xlogStartTrans : ℕ := 0x01
abbrev xlogCommitTrans : ℕ := 0x02
abbrev xlogUnmountTrans : ℕ := 0x20
abbrev opHeaderSize : ℕ := 12
abbrev xfsTransHeaderMagic : ℕ := 0x5452414e
abbrev xfsTransCheckpoint : ℕ := 40
abbrev xlogHeaderMagic : ℕ := 0xfeedbabe
abbrev xlogHeaderCycleSize : ℕ := 32768
abbrev xlogCycleDataEntries : ℕ := 64

/-! ## Operations and payloads -/

structure Op where
  flags : ℕ
  data : List UInt8
  deriving DecidableEq, Repr

namespace Op

def isStart (op : Op) : Bool := op.flags.testBit 0
def isCommit (op : Op) : Bool := op.flags.testBit 1
def isUnmount (op : Op) : Bool := op.flags.testBit 5

end Op

def transHeader (tid kind itemOps : ℕ) : List UInt8 :=
  leBytes 4 xfsTransHeaderMagic ++ leBytes 4 kind ++ leBytes 4 tid ++ leBytes 4 itemOps

def unmountOp : Op where
  flags := xlogUnmountTrans
  data := [0x6e, 0x55, 0, 0, 0, 0, 0, 0]

def opBytes (tid : ℕ) (op : Op) : List UInt8 :=
  beBytes 4 tid ++ beBytes 4 op.data.length ++
    [if op.isUnmount then 0xaa else 0x69, UInt8.ofNat op.flags, 0, 0] ++ op.data

def payload (tid : ℕ) (ops : List Op) : List UInt8 :=
  ops.flatMap (opBytes tid)

-- `XFS_TRANS_CHECKPOINT` is the only kind the driver writes
def padOps (tid : ℕ) : List Op :=
  [⟨xlogStartTrans, []⟩, ⟨0, transHeader tid xfsTransCheckpoint 0⟩, ⟨xlogCommitTrans, []⟩]

def opCost (op : Op) : ℕ :=
  opHeaderSize + op.data.length

@[simp] theorem opBytes_length (tid : ℕ) (op : Op) : (opBytes tid op).length = opCost op := by
  simp [opBytes, opCost, opHeaderSize]
  omega

theorem payload_length (tid : ℕ) (ops : List Op) :
    (payload tid ops).length = (ops.map opCost).sum := by
  induction ops with
  | nil => rfl
  | cons op ops ih =>
    rw [payload, List.flatMap_cons, List.length_append, opBytes_length, List.map_cons,
      List.sum_cons, ← ih, payload]

theorem payload_padOps_length (tid : ℕ) : (payload tid (padOps tid)).length = 52 := by
  simp [payload_length, padOps, opCost, opHeaderSize, transHeader]

/-! ## Where a record goes -/

structure Head where
  block : ℕ
  cycle : ℕ
  prevBlock : ℕ
  freeBlocks : ℕ
  iclogSize : ℕ
  deriving DecidableEq, Repr

def lsnOf (head : Head) : ℕ :=
  head.cycle * 2 ^ 32 + head.block

def rotateLeft16 (n : ℕ) : ℕ :=
  (n * 2 ^ 16 + n / 2 ^ 16) % 2 ^ 32

def transactionId (head : Head) : ℕ :=
  2 ^ 31 + ((rotateLeft16 head.cycle ^^^ head.block) % 2 ^ 31)

def maxPayload (iclogSize : ℕ) : Except Error ℕ :=
  if xlogHeaderCycleSize < iclogSize then
    .error (.unsupportedFeature s!"the log's records are {iclogSize} bytes, so their headers span more than one basic block; writing a multi-block record header is not implemented")
  else if iclogSize < 512 then
    .error (.corruptLog s!"the log's records are {iclogSize} bytes, which cannot hold even the 512-byte header block")
  else
    .ok (iclogSize - 512)

def padBlocks (tid : ℕ) : ℕ :=
  1 + divCeil (payload tid (padOps tid)).length 512

def wrapsFirst (needed free tid : ℕ) : Bool :=
  decide (free < needed) || (decide (needed < free) && decide (free - needed < padBlocks tid))

def recordBlocks (tid : ℕ) (ops : List Op) (iclogSize : ℕ) : Except Error ℕ := do
  let cap ← maxPayload iclogSize
  ensure ((payload tid ops).length ≤ cap)
    (.unsupportedFeature s!"the checkpoint is {(payload tid ops).length} bytes and the log's records hold at most {cap}; splitting one across records is not implemented")
  pure (1 + divCeil (payload tid ops).length 512)

def logAlignment (logsunit : ℕ) : ℕ :=
  max logsunit 512

def recordBlocksForLog (tid : ℕ) (ops : List Op) (iclogSize logsunit : ℕ) : Except Error ℕ := do
  let alignment := logAlignment logsunit
  ensure (alignment % 512 = 0)
    (.unsupportedFeature s!"log stripe unit {logsunit} is not a whole basic block")
  let blocks ← recordBlocks tid ops iclogSize
  let aligned := divCeil (blocks * 512) alignment * alignment
  ensure (aligned ≤ iclogSize)
    (.unsupportedFeature s!"stripe-aligned log record needs {aligned} bytes but the log buffer holds {iclogSize}")
  pure (aligned / 512)

/-! ## Dividing a checkpoint -/

-- the loop of `split_into_records`: the records closed so far, the one being filled and its size
def splitLoop (cap : ℕ) : List Op → List (List Op) → List Op → ℕ → Except Error (List (List Op))
  | [], out, current, _ =>
    let out := if current.isEmpty then out else out ++ [current]
    .ok (if out.isEmpty then [[]] else out)
  | op :: ops, out, current, used =>
    if cap < opCost op then
      .error (.unsupportedFeature s!"one operation of this checkpoint is {opCost op} bytes and the log's records hold at most {cap}; splitting a single operation across records is not implemented")
    else if cap < used + opCost op then
      splitLoop cap ops (out ++ [current]) [op] (opCost op)
    else
      splitLoop cap ops out (current ++ [op]) (used + opCost op)

def splitIntoRecords (ops : List Op) (iclogSize : ℕ) : Except Error (List (List Op)) := do
  let cap ← maxPayload iclogSize
  splitLoop cap ops [] [] 0

/-! ## The bytes of a record -/

/-- A record and where it lies: the fields of `log_write::Placement`, the transaction its
operations belong to, and `h_len`, the payload length with its padding. -/
structure LogRecord where
  block : ℕ
  cycle : ℕ
  prevBlock : ℕ
  tailLsn : ℕ
  iclogSize : ℕ
  tid : ℕ
  ops : List Op
  len : ℕ
  deriving DecidableEq, Repr

namespace LogRecord

def lsn (r : LogRecord) : ℕ :=
  r.cycle * 2 ^ 32 + r.block

def payload (r : LogRecord) : List UInt8 :=
  (Log.payload r.tid r.ops).takeD r.len 0

-- `log::header_blocks`, for a version-2 record
def headerBlocks (r : LogRecord) : ℕ :=
  if r.iclogSize ≤ xlogHeaderCycleSize then 1 else divCeil r.iclogSize xlogHeaderCycleSize

def blocks (r : LogRecord) : ℕ :=
  r.headerBlocks + divCeil r.len 512

end LogRecord

section

variable (crc32c : List UInt8 → ℕ)

-- the header block with its checksum field as given; `h_fmt` is this machine's, little-endian
def headerBytes (uuid : List UInt8) (r : LogRecord) (cycleData : List UInt8) (crc : ℕ) :
    List UInt8 :=
  beBytes 4 xlogHeaderMagic ++ beBytes 4 r.cycle ++ beBytes 4 2 ++ beBytes 4 r.len ++
    beBytes 8 r.lsn ++ beBytes 8 r.tailLsn ++ leBytes 4 crc ++ beBytes 4 r.prevBlock ++
    beBytes 4 r.ops.length ++ cycleData.takeD 256 0 ++ beBytes 4 1 ++ uuid.takeD 16 0 ++
    beBytes 4 r.iclogSize ++ List.replicate 188 0

def encodeRecord (uuid : List UInt8) (r : LogRecord) : Except Error (List UInt8) :=
  let blocks := divCeil r.len 512
  let data := r.payload.takeD (blocks * 512) 0
  if xlogCycleDataEntries < blocks then
    .error (.panicked s!"a record of {blocks} basic blocks needs more cycle-data entries than the {xlogCycleDataEntries} a single header block holds; max_payload should have refused it")
  else
    -- each payload block's first word is displaced into the header by the cycle number
    let cycleData := (List.range blocks).flatMap fun k => slice data (k * 512) 4
    let stamped := (List.range blocks).flatMap fun k =>
      beBytes 4 r.cycle ++ slice data (k * 512 + 4) (512 - 4)
    let crc := crc32c ((headerBytes uuid r cycleData 0).take 328 ++ stamped.take r.len)
    .ok (headerBytes uuid r cycleData crc ++ stamped)

end

/-! ## Sizes -/

theorem padBlocks_eq (tid : ℕ) : padBlocks tid = 2 := by
  rw [padBlocks, payload_padOps_length]
  decide

variable {iclogSize cap : ℕ} {ops : List Op}

theorem maxPayload_spec (h : maxPayload iclogSize = .ok cap) :
    iclogSize ≤ 32768 ∧ iclogSize = cap + 512 := by
  unfold maxPayload at h
  split at h
  · cases h
  · next hle =>
    split at h
    · cases h
    · next hge =>
      have hcap := Except.ok.inj h
      simp only [xlogHeaderCycleSize] at hle hge hcap
      omega

theorem LogRecord.one_le_blocks (r : LogRecord) : 1 ≤ r.blocks := by
  have hheader : 1 ≤ r.headerBlocks := by
    unfold LogRecord.headerBlocks
    split
    · exact le_refl 1
    · next hlarge =>
      have hceil := @le_divCeil_mul r.iclogSize xlogHeaderCycleSize (by decide)
      simp only [xlogHeaderCycleSize] at hlarge hceil ⊢
      omega
  exact hheader.trans (Nat.le_add_right _ _)

/-- A record that is accepted holds its operations, ends on a stripe boundary and fits the in-core
buffer with its header block. -/
theorem recordBlocksForLog_spec {tid logsunit n : ℕ}
    (h : recordBlocksForLog tid ops iclogSize logsunit = .ok n) :
    ∃ cap, maxPayload iclogSize = .ok cap ∧ (payload tid ops).length ≤ cap ∧
      (payload tid ops).length ≤ (n - 1) * 512 ∧ 1 ≤ n ∧ (n - 1) * 512 ≤ cap ∧
      logAlignment logsunit / 512 ∣ n := by
  simp only [recordBlocksForLog, recordBlocks, bind_eq_ok, ensure_eq_ok] at h
  obtain ⟨-, halign, blocks, ⟨cap, hcap, -, hfit, hblocks⟩, -, hle, hn⟩ := h
  simp only [pure, Except.pure, Except.ok.injEq] at hblocks hn
  have hapos : 0 < logAlignment logsunit := lt_of_lt_of_le (by decide) (Nat.le_max_right _ _)
  have hge := le_divCeil_mul (blocks * 512) hapos
  obtain ⟨a, ha⟩ : 512 ∣ logAlignment logsunit := Nat.dvd_of_mod_eq_zero halign
  rw [ha] at hge hle hn ⊢
  set q := divCeil (blocks * 512) (512 * a) with hq
  have hcomm : q * (512 * a) = q * a * 512 := by
    rw [Nat.mul_comm 512 a, Nat.mul_assoc]
  rw [hcomm] at hge hle hn
  rw [Nat.mul_div_cancel _ (by decide)] at hn
  have hlen := @le_divCeil_mul (payload tid ops).length 512 (by decide)
  have hspec := maxPayload_spec hcap
  have hsizes : (payload tid ops).length ≤ (n - 1) * 512 ∧ 1 ≤ n ∧ (n - 1) * 512 ≤ cap := by
    omega
  refine ⟨cap, hcap, hfit, hsizes.1, hsizes.2.1, hsizes.2.2, ?_⟩
  rw [Nat.mul_div_cancel_left _ (by decide), ← hn]
  exact Dvd.intro_left q rfl

/-! ## What the division keeps -/

/-- With every closed record within `cap` and the open one of size `used` within it too, the loop
returns records within `cap` that hold the operations in order. -/
theorem splitLoop_spec {out groups : List (List Op)} {current : List Op} {used : ℕ}
    (hout : ∀ g ∈ out, (g.map opCost).sum ≤ cap) (hcur : (current.map opCost).sum = used)
    (hused : used ≤ cap) (h : splitLoop cap ops out current used = .ok groups) :
    groups.flatten = out.flatten ++ current ++ ops ∧ groups ≠ [] ∧
      ∀ g ∈ groups, (g.map opCost).sum ≤ cap := by
  induction ops generalizing out current used with
  | nil =>
    simp only [splitLoop, Except.ok.injEq] at h
    subst h
    cases current with
    | nil =>
      cases out with
      | nil => simp
      | cons g out => simpa using hout
    | cons op current =>
      simp only [List.isEmpty_cons, Bool.false_eq_true, if_false]
      have hne : (out ++ [op :: current]).isEmpty = false := by cases out <;> rfl
      rw [hne]
      refine ⟨by simp, by simp, ?_⟩
      intro g hg
      rcases List.mem_append.mp hg with hg | hg
      · exact hout g hg
      · rw [List.mem_singleton.mp hg, hcur]
        exact hused
  | cons op ops ih =>
    rw [splitLoop] at h
    split at h
    · cases h
    · next hop =>
      split at h
      · -- the open record is closed and a new one starts with this operation
        have hout' : ∀ g ∈ out ++ [current], (g.map opCost).sum ≤ cap := by
          intro g hg
          rcases List.mem_append.mp hg with hg | hg
          · exact hout g hg
          · rw [List.mem_singleton.mp hg, hcur]
            exact hused
        obtain ⟨hflat, hne, hall⟩ := ih hout' (by simp) (by omega) h
        exact ⟨by simpa using hflat, hne, hall⟩
      · next hfit =>
        have hcur' : ((current ++ [op]).map opCost).sum = used + opCost op := by
          simp [hcur]
        obtain ⟨hflat, hne, hall⟩ := ih hout hcur' (by omega) h
        exact ⟨by simpa using hflat, hne, hall⟩

theorem splitIntoRecords_spec {groups : List (List Op)}
    (h : splitIntoRecords ops iclogSize = .ok groups) :
    ∃ cap, maxPayload iclogSize = .ok cap ∧ groups.flatten = ops ∧ groups ≠ [] ∧
      ∀ tid, ∀ g ∈ groups, (payload tid g).length ≤ cap := by
  simp only [splitIntoRecords, bind_eq_ok] at h
  obtain ⟨cap, hcap, hloop⟩ := h
  obtain ⟨hflat, hne, hall⟩ := splitLoop_spec (by simp) rfl (Nat.zero_le _) hloop
  refine ⟨cap, hcap, by simpa using hflat, hne, ?_⟩
  intro tid g hg
  rw [payload_length]
  exact hall g hg

theorem splitLoop_fits {current : List Op} {used : ℕ} (h : used + (ops.map opCost).sum ≤ cap)
    (hne : current ++ ops ≠ []) :
    splitLoop cap ops [] current used = .ok [current ++ ops] := by
  induction ops generalizing current used with
  | nil =>
    rw [List.append_nil] at hne ⊢
    have hempty : current.isEmpty = false := List.isEmpty_eq_false_iff.mpr hne
    simp [splitLoop, hempty]
  | cons op ops ih =>
    rw [List.map_cons, List.sum_cons] at h
    rw [splitLoop, if_neg (by omega), if_neg (by omega), ih (by omega) (by simp)]
    simp

theorem splitIntoRecords_fits (hcap : maxPayload iclogSize = .ok cap)
    (h : (ops.map opCost).sum ≤ cap) (hne : ops ≠ []) :
    splitIntoRecords ops iclogSize = .ok [ops] := by
  rw [splitIntoRecords, hcap]
  exact splitLoop_fits (by omega) hne

theorem recordBlocksForLog_fits {tid : ℕ} (hcap : maxPayload iclogSize = .ok cap)
    (h : (ops.map opCost).sum ≤ cap)
    (hfit : (1 + divCeil (ops.map opCost).sum 512) * 512 ≤ iclogSize) :
    recordBlocksForLog tid ops iclogSize 0 = .ok (1 + divCeil (ops.map opCost).sum 512) := by
  have halign : logAlignment 0 = 512 := rfl
  rw [← payload_length tid] at h hfit ⊢
  simp only [recordBlocksForLog, recordBlocks, bind_eq_ok, ensure_eq_ok, halign, hcap,
    Except.ok.injEq, exists_eq_left', pure, Except.pure]
  refine ⟨(), trivial, _, ⟨(), h, rfl⟩, (), ?_, ?_⟩
  · rw [divCeil_mul_self _ (by decide)]
    exact hfit
  · rw [divCeil_mul_self _ (by decide), Nat.mul_div_cancel _ (by decide)]

/-! ## When the encoder panics -/

theorem headerBytes_length (uuid : List UInt8) (r : LogRecord) (cycleData : List UInt8) (crc : ℕ) :
    (headerBytes uuid r cycleData crc).length = 512 := by
  simp only [headerBytes, List.length_append, beBytes_length, leBytes_length, List.takeD_length,
    List.length_replicate]

/-- One header block describes at most 64 payload blocks. A record of more panics, and any other
is laid down as its header block and its payload blocks. -/
theorem encodeRecord_spec (crc32c : List UInt8 → ℕ) (uuid : List UInt8) (r : LogRecord) :
    if 64 < divCeil r.len 512 then
      ∃ why, encodeRecord crc32c uuid r = .error (.panicked why)
    else
      ∃ bytes, encodeRecord crc32c uuid r = .ok bytes ∧
        bytes.length = (1 + divCeil r.len 512) * 512 := by
  split
  · next h =>
    exact ⟨_, by simp only [encodeRecord, xlogCycleDataEntries]; rw [if_pos h]⟩
  · next h =>
    have hslice : ∀ k ∈ List.range (divCeil r.len 512),
        (beBytes 4 r.cycle ++ slice (r.payload.takeD (divCeil r.len 512 * 512) 0)
          (k * 512 + 4) (512 - 4)).length = 512 := by
      intro k hk
      have hk' := List.mem_range.mp hk
      have hfit : k * 512 + 4 + (512 - 4) ≤
          (r.payload.takeD (divCeil r.len 512 * 512) 0).length := by
        rw [List.takeD_length]
        omega
      rw [List.length_append, beBytes_length, slice_length hfit]
    refine ⟨_, by simp only [encodeRecord, xlogCycleDataEntries]; rw [if_neg h], ?_⟩
    rw [List.length_append, headerBytes_length, List.length_flatMap, List.map_congr_left hslice,
      List.map_const', List.sum_replicate, List.length_range, Nat.add_mul]
    rfl

end FsXfs.Log
