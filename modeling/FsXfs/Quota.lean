import FsXfs.Extent
import FsXfs.Lib.Fields
import Mathlib.Algebra.Ring.Parity
import Mathlib.Algebra.Order.Ring.Nat
import Mathlib.Data.Nat.Factorization.Basic
import Mathlib.Data.Nat.ModEq
import Mathlib.Tactic.Ring

/-!
# Quota records

`quota.rs`: where a dquot lives, how a usage change rewrites it, and the log item that carries the
new record; and `log_recover::apply_dquot`, which puts it back. The old record is read through the
extent map at the block's own address (`Superblock.fsblockOffset`). The item names a basic block
computed from the packed block number, and both the mount's overlay and recovery write there.
-/

namespace FsXfs.Quota

open Bytes

set_option autoImplicit false

/-! ## The record -/

abbrev dqblkSize : ℕ := 136
abbrev dqMagic : ℕ := 0x4451
def dqVersion : UInt8 := 1
abbrev xfsLiDquot : ℕ := 0x123d

abbrev dqBhard : ℕ := 8
abbrev dqIhard : ℕ := 24
abbrev dqBcount : ℕ := 40
abbrev dqIcount : ℕ := 48
abbrev dqCrc : ℕ := 108

def hex (n : ℕ) : String :=
  "0x" ++ String.ofList (Nat.toDigits 16 n)

section

-- CRC32C over a buffer, which nothing here depends on the value of
variable (crc32c : List UInt8 → ℕ)

def crc32cWithZeroedCrc (buf : List UInt8) (crcOff : ℕ) : ℕ :=
  crc32c (patch buf crcOff [0, 0, 0, 0])

theorem leValue_stamp {crc32c : List UInt8 → ℕ} {body : List UInt8} {at_ : ℕ}
    (hcrc32c : ∀ bytes, crc32c bytes < 2 ^ 32) (hin : at_ + 4 ≤ body.length) :
    leValue (slice (patch body at_ (leBytes 4 (crc32cWithZeroedCrc crc32c body at_))) at_ 4) =
      crc32cWithZeroedCrc crc32c
        (patch body at_ (leBytes 4 (crc32cWithZeroedCrc crc32c body at_))) at_ := by
  have hlen : (leBytes 4 (crc32cWithZeroedCrc crc32c body at_)).length = 4 := leBytes_length _ _
  have hread := @slice_patch_self body (leBytes 4 (crc32cWithZeroedCrc crc32c body at_)) at_
    (by rw [hlen]; exact hin)
  rw [hlen] at hread
  have hzeroed : crc32cWithZeroedCrc crc32c
      (patch body at_ (leBytes 4 (crc32cWithZeroedCrc crc32c body at_))) at_ =
      crc32cWithZeroedCrc crc32c body at_ := by
    rw [crc32cWithZeroedCrc, patch_patch_self (by rw [hlen]; exact hin) hlen, crc32cWithZeroedCrc]
  rw [hzeroed, hread, leValue_leBytes_of_lt (hcrc32c _)]

def usageAfter (current : ℕ) (delta : ℤ) (what : String) : Except Error ℕ :=
  if 0 ≤ (current : ℤ) + delta ∧ (current : ℤ) + delta < 2 ^ 64 then
    .ok ((current : ℤ) + delta).toNat
  else
    .error (.unsupportedFeature s!"quota {what} usage {current} cannot be adjusted by {delta}")

/-- The record as `adjust_record` finds it: a blank one is given its identity, and any other has
to carry it under a checksum that verifies. -/
def identified (record : List UInt8) (kind id : ℕ) : Except Error (List UInt8) :=
  if record.all (· == 0) then
    .ok (patch record 0
      (beBytes 2 dqMagic ++ [dqVersion, UInt8.ofNat kind] ++ beBytes 4 id))
  else if beValue (slice record 0 2) ≠ dqMagic ∨ record[2]? ≠ some dqVersion ∨
      (record[3]?.map fun b => b.toNat % 8) ≠ some kind ∨ beValue (slice record 4 4) ≠ id then
    .error (.unsupportedFeature s!"quota record for {hex kind} id {id} is absent or malformed")
  else if leValue (slice record dqCrc 4) ≠ crc32cWithZeroedCrc crc32c record dqCrc then
    .error (.unsupportedFeature s!"quota record for {hex kind} id {id} has a bad CRC")
  else
    .ok record

def adjustRecord (record : List UInt8) (kind id : ℕ) (blocksFs inodes : ℤ) (enforce : Bool) :
    Except Error (List UInt8) := do
  ensure (record.length = dqblkSize)
    (.unsupportedFeature s!"XFS dquot record is {record.length} bytes; expected {dqblkSize}")
  let record ← identified crc32c record kind id
  let nextBlocks ← usageAfter (beValue (slice record dqBcount 8)) blocksFs "block"
  let nextInodes ← usageAfter (beValue (slice record dqIcount 8)) inodes "inode"
  let blockLimit := beValue (slice record dqBhard 8)
  let inodeLimit := beValue (slice record dqIhard 8)
  ensure (¬(enforce = true ∧ blockLimit ≠ 0 ∧ blockLimit < nextBlocks))
    (.unsupportedFeature s!"quota {hex kind} id {id} block hard limit {blockLimit} would be exceeded by {nextBlocks}")
  ensure (¬(enforce = true ∧ inodeLimit ≠ 0 ∧ inodeLimit < nextInodes))
    (.unsupportedFeature s!"quota {hex kind} id {id} inode hard limit {inodeLimit} would be exceeded by {nextInodes}")
  let record := patch record dqBcount (beBytes 8 nextBlocks)
  let record := patch record dqIcount (beBytes 8 nextInodes)
  pure (patch record dqCrc (leBytes 4 (crc32cWithZeroedCrc crc32c record dqCrc)))

/-! ## Where a record is -/

def recordAddress (blocksize id : ℕ) : Except Error (ℕ × ℕ) :=
  let perBlock := blocksize / dqblkSize
  if perBlock = 0 then
    .error (.unsupportedFeature "filesystem block is too small for an XFS dquot")
  else
    .ok (id / perBlock, id % perBlock * dqblkSize)

def quotaExtent (fs : Filesystem) (qino id logical : ℕ) : Except Error Extent := do
  let extents ← fs.dataExtents qino
  orElse (lookup extents logical)
    (.unsupportedFeature s!"quota record {id} is not allocated in quota inode {qino}")

def recordPlace (fs : Filesystem) (qino id : ℕ) : Except Error (ℕ × ℕ) := do
  let (logical, within) ← recordAddress fs.sb.blocksize id
  let extent ← quotaExtent fs qino id logical
  let fsblock ← orElse (extent.map logical) (.internal "quota extent lookup lost its mapping")
  pure (fsblock, within)

/-! ## The log item -/

structure QuotaLogItem where
  blkno : ℕ
  offset : ℕ
  id : ℕ
  record : List UInt8
  deriving DecidableEq, Repr

def updateDquot (fs : Filesystem) (qino id kind : ℕ) (blocksFs inodes : ℤ) (enforce : Bool) :
    Except Error QuotaLogItem := do
  let (fsblock, within) ← recordPlace fs qino id
  let block ← fs.readFsblock fsblock
  let record ← adjustRecord crc32c (slice block within dqblkSize) kind id blocksFs inodes enforce
  -- `checked_mul`
  ensure (fsblock * (fs.sb.blocksize / 512) < 2 ^ 64)
    (.unsupportedFeature "quota buffer address overflowed")
  pure ⟨fsblock * (fs.sb.blocksize / 512), within, id, record⟩

def QuotaLogItem.ops (item : QuotaLogItem) : List (List UInt8) :=
  [leBytes 2 xfsLiDquot ++ (leBytes 2 2 ++ (leBytes 4 item.id ++ (leBytes 8 item.blkno ++
    (leBytes 4 1 ++ leBytes 4 item.offset)))), item.record]

structure Placed where
  at_ : ℕ
  block : List UInt8
  offset : ℕ

def QuotaLogItem.applyOverlay (item : QuotaLogItem) (fs : Filesystem) : Except Error Placed := do
  let at_ := wrap64 (item.blkno * 512)
  let block ← fs.device.readAt at_ fs.sb.blocksize
  pure ⟨at_, patch block item.offset item.record, item.offset⟩

def applyDquot (sb : Superblock) (into : Device) (regions : List (List UInt8)) :
    Except Error Placed := do
  let f := regions.headD []
  let record := regions.getD 1 []
  ensure (24 ≤ f.length ∧ regions.length = 2 ∧ record.length = dqblkSize)
    (.corruptLog "a dquot log item has an invalid format or record length")
  let size := leValue (slice f 2 2)
  ensure (size = 2) (.corruptLog s!"a dquot log item says it has {size} operations, expected 2")
  let id := leValue (slice f 4 4)
  let blkno := leValue (slice f 8 8)
  let len := leValue (slice f 16 4)
  let offset := leValue (slice f 20 4)
  -- `blkno` is read as an `i64`
  ensure (blkno < 2 ^ 63 ∧ len = 1 ∧ offset + dqblkSize ≤ sb.blocksize)
    (.corruptLog s!"dquot {id} has invalid buffer address {blkno}, length {len}, or offset {offset}")
  ensure (beValue (slice record 0 2) = dqMagic ∧ record[2]? = some dqVersion ∧
      beValue (slice record 4 4) = id)
    (.corruptLog s!"dquot log item {id} carries a different or malformed record")
  ensure (sb.blocksize / 512 ≠ 0 ∧ blkno % (sb.blocksize / 512) = 0)
    (.corruptLog s!"dquot {id} buffer address {blkno} is not filesystem-block aligned")
  let at_ := wrap64 (blkno * 512)
  let buffer ← into.readAt at_ sb.blocksize
  let buffer := patch buffer offset record
  let crc := crc32cWithZeroedCrc crc32c (slice buffer offset dqblkSize) dqCrc
  pure ⟨at_, patch buffer (offset + dqCrc) (leBytes 4 crc), offset⟩

end

/-! ## What an update returns -/

variable {crc32c : List UInt8 → ℕ} {id fsblock : ℕ}

theorem recordAddress_within {blocksize logical within : ℕ}
    (h : recordAddress blocksize id = .ok (logical, within)) : within + dqblkSize ≤ blocksize := by
  unfold recordAddress at h
  simp only at h
  split at h
  · cases h
  · next hne =>
    simp only [Except.ok.injEq, Prod.mk.injEq] at h
    have hlt : id % (blocksize / dqblkSize) < blocksize / dqblkSize :=
      Nat.mod_lt _ (Nat.pos_of_ne_zero hne)
    have hmul := Nat.mul_le_mul_right dqblkSize hlt
    have hdiv := Nat.div_mul_le_self blocksize dqblkSize
    simp only [Nat.succ_eq_add_one, Nat.add_mul, Nat.one_mul] at hmul
    omega

variable {fs : Filesystem} {item : QuotaLogItem}

theorem recordPlace_spec {qino within : ℕ} (h : recordPlace fs qino id = .ok (fsblock, within)) :
    within + dqblkSize ≤ fs.sb.blocksize ∧
      ∃ logical e, recordAddress fs.sb.blocksize id = .ok (logical, within) ∧
        quotaExtent fs qino id logical = .ok e ∧
        fs.sb.extentInBounds e.startblock e.blockcount = true ∧
        ∃ i < e.blockcount, fsblock = e.startblock + i := by
  simp only [recordPlace, bind_eq_ok, Prod.exists, orElse_eq_ok] at h
  obtain ⟨logical, w, haddr, e, hext, b, hmap, hpure⟩ := h
  obtain ⟨rfl, rfl⟩ := hpure
  obtain ⟨hc, rfl⟩ := Extent.map_eq_some.mp hmap
  refine ⟨recordAddress_within haddr, logical, e, haddr, hext, ?_, ?_⟩
  · -- the list the extent came from passed the bounds check
    simp only [quotaExtent, bind_eq_ok, orElse_eq_ok] at hext
    obtain ⟨extents, hdata, hlook⟩ := hext
    simp only [Filesystem.dataExtents, bind_eq_ok, ensure_eq_ok] at hdata
    obtain ⟨fork, -, -, -, _, hcheck, hpure⟩ := hdata
    simp only [pure, Except.pure, Except.ok.injEq] at hpure
    subst hpure
    exact Filesystem.checkExtentsInBounds_ok hcheck e (lookup_mem hlook).1
  · obtain ⟨hlo, hhi⟩ := Extent.contains_iff.mp hc
    exact ⟨logical - e.startoff, by omega, rfl⟩

/-- A successful update read the record's block at its own address, and names the basic block the
packed number gives. -/
theorem updateDquot_spec {qino kind : ℕ} {blocksFs inodes : ℤ} {enforce : Bool}
    (h : updateDquot crc32c fs qino id kind blocksFs inodes enforce = .ok item) :
    ∃ fsblock, recordPlace fs qino id = .ok (fsblock, item.offset) ∧
      fs.sb.fsblockOffset fsblock + fs.sb.blocksize ≤ fs.device.size ∧
      item.blkno = fsblock * (fs.sb.blocksize / 512) ∧ item.blkno < 2 ^ 64 := by
  simp only [updateDquot, bind_eq_ok, Prod.exists, ensure_eq_ok] at h
  obtain ⟨fsblock, within, hplace, block, hread, record, -, -, hlt, hpure⟩ := h
  simp only [pure, Except.pure, Except.ok.injEq] at hpure
  subst hpure
  exact ⟨fsblock, hplace, (Device.readAt_length hread).2, rfl, hlt⟩

/-! ## Where the two writers put the record -/

def QuotaLogItem.bufferAt (item : QuotaLogItem) : ℕ :=
  wrap64 (item.blkno * 512)

theorem applyOverlay_at {w : Placed}
    (h : item.applyOverlay fs = .ok w) : w.at_ = item.bufferAt ∧ w.offset = item.offset := by
  simp only [QuotaLogItem.applyOverlay, bind_eq_ok] at h
  obtain ⟨block, -, hpure⟩ := h
  simp only [pure, Except.pure, Except.ok.injEq] at hpure
  subst hpure
  exact ⟨rfl, rfl⟩

theorem ops_fields (hblk : item.blkno < 2 ^ 64) (hoff : item.offset < 2 ^ 32) :
    leValue (slice (item.ops.headD []) 8 8) = item.blkno ∧
      leValue (slice (item.ops.headD []) 20 4) = item.offset := by
  have hb : slice (item.ops.headD []) 8 8 = leBytes 8 item.blkno := by
    simp [QuotaLogItem.ops, slice_append_right, slice_append_left, slice_all]
  have ho : slice (item.ops.headD []) 20 4 = leBytes 4 item.offset := by
    simp [QuotaLogItem.ops, slice_append_right, slice_all]
  rw [hb, ho]
  exact ⟨leValue_leBytes_of_lt (by simpa using hblk), leValue_leBytes_of_lt (by simpa using hoff)⟩

theorem applyDquot_at {sb : Superblock} {into : Device} {w : Placed} (hblk : item.blkno < 2 ^ 64)
    (hoff : item.offset < 2 ^ 32) (h : applyDquot crc32c sb into item.ops = .ok w) :
    w.at_ = item.bufferAt ∧ w.offset = item.offset := by
  obtain ⟨hb, ho⟩ := ops_fields hblk hoff
  simp only [applyDquot, bind_eq_ok, ensure_eq_ok, hb, ho] at h
  obtain ⟨-, -, -, -, -, -, -, -, -, -, _, -, hpure⟩ := h
  simp only [pure, Except.pure, Except.ok.injEq] at hpure
  subst hpure
  exact ⟨rfl, rfl⟩

/-! ## The two addresses -/

/-- The gap `2 ^ k - A` a group leaves is a multiple of the same power of two as `A` itself and of
no higher one. So when a whole number of gaps is a multiple of a power of two, that power is at
most the same number of groups. -/
theorem two_pow_le_of_dvd_gaps {n g A k s : ℕ} (hA : 0 < A) (hAk : A < 2 ^ k) (hg : g ≠ 0)
    (hdvd : 2 ^ n ∣ g * (2 ^ k - A) * 2 ^ s) : 2 ^ n ≤ g * A * 2 ^ s := by
  obtain ⟨v, a, haodd, hAeq⟩ := Nat.exists_eq_two_pow_mul_odd hA.ne'
  have hvA : 2 ^ v ≤ A := hAeq ▸ Nat.le_mul_of_pos_right _ haodd.pos
  have hvk : v < k := by
    by_contra hge
    have : 2 ^ k ≤ 2 ^ v := Nat.pow_le_pow_right (by decide) (by omega)
    omega
  have hpow : 2 ^ k = 2 ^ v * 2 ^ (k - v) := by
    rw [← Nat.pow_add, Nat.add_sub_cancel' hvk.le]
  have hsub : 2 ^ k - A = 2 ^ v * (2 ^ (k - v) - a) := by
    rw [hpow, hAeq, ← Nat.mul_sub]
  have hale : a ≤ 2 ^ (k - v) := by
    have h := hAk.le
    rw [hAeq, hpow] at h
    exact Nat.le_of_mul_le_mul_left h (by positivity)
  have hodd : Odd (2 ^ (k - v) - a) :=
    Nat.Even.sub_odd hale (Nat.even_pow.mpr ⟨even_two, by omega⟩) haodd
  have hcop : Nat.Coprime (2 ^ n) (2 ^ (k - v) - a) :=
    Nat.Coprime.pow_left n (Nat.coprime_two_left.mpr hodd)
  have hdvd' : 2 ^ n ∣ g * 2 ^ v * 2 ^ s := by
    have e : (2 ^ (k - v) - a) * (g * 2 ^ v * 2 ^ s) = g * (2 ^ k - A) * 2 ^ s := by
      rw [hsub]; ring
    exact hcop.dvd_of_dvd_mul_left (e ▸ hdvd)
  calc 2 ^ n ≤ g * 2 ^ v * 2 ^ s := Nat.le_of_dvd (by positivity) hdvd'
    _ ≤ g * A * 2 ^ s := Nat.mul_le_mul_right _ (Nat.mul_le_mul_left g hvA)

/-- A packed number scaled to bytes, reduced to a `u64`, is its linear one exactly when no gap lies
before the block: a gap large enough to vanish would take the linear address past a `u64` too. -/
theorem packed_eq_linear_iff {A k s : ℕ} (hA : 0 < A) (hAk : A ≤ 2 ^ k)
    (hlt : (fsblock / 2 ^ k * A + fsblock % 2 ^ k) * 2 ^ s < 2 ^ 64) :
    fsblock * 2 ^ s % 2 ^ 64 = (fsblock / 2 ^ k * A + fsblock % 2 ^ k) * 2 ^ s ↔
      A = 2 ^ k ∨ fsblock / 2 ^ k = 0 := by
  set g := fsblock / 2 ^ k with hg
  set r := fsblock % 2 ^ k with hr
  have hsplit : fsblock = g * 2 ^ k + r := by
    rw [hg, hr, Nat.mul_comm]
    exact (Nat.div_add_mod fsblock (2 ^ k)).symm
  constructor
  · intro heq
    by_contra hne
    obtain ⟨hAne, hg0⟩ := not_or.mp hne
    have hgaps : fsblock * 2 ^ s = (g * A + r) * 2 ^ s + g * (2 ^ k - A) * 2 ^ s := by
      obtain ⟨d, hd⟩ := Nat.exists_eq_add_of_le hAk
      rw [hsplit, hd, Nat.add_sub_cancel_left]
      ring
    have hdvd : 2 ^ 64 ∣ g * (2 ^ k - A) * 2 ^ s := by
      have hmod : (g * A + r) * 2 ^ s + g * (2 ^ k - A) * 2 ^ s ≡ (g * A + r) * 2 ^ s + 0
          [MOD 2 ^ 64] := by
        rw [← hgaps, Nat.ModEq, heq, Nat.add_zero, Nat.mod_eq_of_lt hlt]
      exact Nat.modEq_zero_iff_dvd.mp (Nat.ModEq.add_left_cancel' _ hmod)
    have hle := two_pow_le_of_dvd_gaps hA (lt_of_le_of_ne hAk hAne) hg0 hdvd
    have : g * A * 2 ^ s ≤ (g * A + r) * 2 ^ s := Nat.mul_le_mul_right _ (Nat.le_add_right _ _)
    omega
  · intro h
    have hlin : fsblock = g * A + r := by
      rcases h with h | h
      · rw [h]; exact hsplit
      · rw [h] at hsplit ⊢; simpa using hsplit
    rw [← hlin] at hlt ⊢
    exact Nat.mod_eq_of_lt hlt

/-! ## Whether the record goes back where it was read -/

def recordReadAt (fs : Filesystem) (qino id : ℕ) : Except Error ℕ := do
  let (fsblock, within) ← recordPlace fs qino id
  pure (fs.sb.fsblockOffset fsblock + within)

def QuotaLogItem.NamesRecordRead (item : QuotaLogItem) (fs : Filesystem) (qino id : ℕ) : Prop :=
  recordReadAt fs qino id = .ok (item.bufferAt + item.offset)

def RecordInFirstGroup (fs : Filesystem) (qino id : ℕ) : Prop :=
  ∃ logical within e, recordAddress fs.sb.blocksize id = .ok (logical, within) ∧
    quotaExtent fs qino id logical = .ok e ∧ e.startblock / 2 ^ fs.sb.agblklog = 0

theorem bufferAt_eq_iff (hag : fsblock / 2 ^ fs.sb.agblklog < fs.sb.agcount)
    (hread : fs.sb.fsblockOffset fsblock + fs.sb.blocksize ≤ fs.device.size)
    (hblk : item.blkno = fsblock * (fs.sb.blocksize / 512)) :
    item.bufferAt = fs.sb.fsblockOffset fsblock ↔
      fs.sb.agblocks = 2 ^ fs.sb.agblklog ∨ fsblock / 2 ^ fs.sb.agblklog = 0 := by
  have hgeo := fs.accepted.geometry
  have hsize := fs.device.size_lt
  have hge := hgeo.blocksize_ge
  have hoff := Superblock.fsblockOffset_eq fs.accepted hag (by omega)
  have h512 := Nat.div_mul_cancel hgeo.basicBlocks
  have hbuf : item.bufferAt = fsblock * 2 ^ fs.sb.blocklog % 2 ^ 64 := by
    rw [QuotaLogItem.bufferAt, wrap64, hblk, Nat.mul_assoc, h512, hgeo.blocksize_eq]
  rw [hbuf, hoff, Superblock.linearBlock, hgeo.blocksize_eq]
  refine packed_eq_linear_iff hgeo.agblocks_pos hgeo.agblocks_le ?_
  rw [hoff, Superblock.linearBlock, hgeo.blocksize_eq] at hread
  exact lt_of_le_of_lt ((Nat.le_add_right _ _).trans hread) hsize

/-- The overlay and recovery both put an updated record at the buffer its item names, and those
are the bytes the old record was read from exactly when every group is a full power of two of
blocks or the record's extent is in the first group. -/
theorem dquot_item_names_record_read_iff {crc32c : List UInt8 → ℕ} {fs : Filesystem}
    {qino id kind : ℕ} {blocksFs inodes : ℤ} {enforce : Bool} {item : QuotaLogItem}
    (h : updateDquot crc32c fs qino id kind blocksFs inodes enforce = .ok item) :
    (∀ w, item.applyOverlay fs = .ok w → w.at_ + w.offset = item.bufferAt + item.offset) ∧
      (∀ into w, applyDquot crc32c fs.sb into item.ops = .ok w →
        w.at_ + w.offset = item.bufferAt + item.offset) ∧
      (item.NamesRecordRead fs qino id ↔
        fs.sb.agblocks = 2 ^ fs.sb.agblklog ∨ RecordInFirstGroup fs qino id) := by
  obtain ⟨fsblock, hplace, hread, hblk, hlt⟩ := updateDquot_spec h
  obtain ⟨hwithin, logical, e, haddr, hext, hbounds, i, hi, hfs⟩ := recordPlace_spec hplace
  have hble := fs.accepted.geometry.blocksize_le
  refine ⟨fun w hw => ?_, fun into w hw => ?_, ?_⟩
  · rw [(applyOverlay_at hw).1, (applyOverlay_at hw).2]
  · have := applyDquot_at hlt (by omega) hw
    rw [this.1, this.2]
  · obtain ⟨-, hag, hsame⟩ := Superblock.extentInBounds_spec hbounds
    have hgroup : fsblock / 2 ^ fs.sb.agblklog = e.startblock / 2 ^ fs.sb.agblklog := by
      rw [hfs]
      exact (hsame i hi).1
    have hnames : item.NamesRecordRead fs qino id ↔
        item.bufferAt = fs.sb.fsblockOffset fsblock := by
      simp only [QuotaLogItem.NamesRecordRead, recordReadAt, hplace, bind, Except.bind, pure,
        Except.pure, Except.ok.injEq]
      omega
    have hfirst : RecordInFirstGroup fs qino id ↔ fsblock / 2 ^ fs.sb.agblklog = 0 := by
      rw [hgroup]
      refine ⟨?_, fun hz => ⟨logical, item.offset, e, haddr, hext, hz⟩⟩
      rintro ⟨l, w, e', haddr', hext', hz⟩
      rw [haddr] at haddr'
      cases haddr'
      rw [hext] at hext'
      rwa [Except.ok.inj hext']
    rw [hnames, hfirst]
    exact bufferAt_eq_iff (hgroup ▸ hag) hread hblk

def quotaAt (start : ℕ) : Filesystem where
  sb := twoGroups
  accepted := twoGroups_accepted
  device := { size := 49152, byte := fun _ => 0 }
  readFork := fun _ => .ok ⟨false, [⟨0, start, 4, false⟩]⟩

/-- A dquot in the second group is read at block 34 of the device and written at block 42. -/
theorem dquot_in_second_group_is_written_elsewhere :
    ∃ item, updateDquot (fun _ => 0) (quotaAt 41) 65 12 1 1 0 false = .ok item ∧
      item.bufferAt + item.offset = 42 * 1024 + 680 ∧
      recordReadAt (quotaAt 41) 65 12 = .ok (34 * 1024 + 680) ∧
      ¬item.NamesRecordRead (quotaAt 41) 65 12 := by
  have hok : (updateDquot (fun _ => 0) (quotaAt 41) 65 12 1 1 0 false).toBool = true := by
    decide +kernel
  obtain ⟨item, hitem⟩ := exists_ok_of_toBool hok
  have hread : recordReadAt (quotaAt 41) 65 12 = .ok (34 * 1024 + 680) := by decide
  have hat : item.bufferAt + item.offset = 42 * 1024 + 680 := by
    obtain ⟨fsblock, hplace, -, hblk, -⟩ := updateDquot_spec hitem
    obtain ⟨rfl, hoff⟩ := Prod.mk.inj (Except.ok.inj hplace)
    rw [QuotaLogItem.bufferAt, hblk, ← hoff]
    decide
  refine ⟨item, hitem, hat, hread, ?_⟩
  rw [QuotaLogItem.NamesRecordRead, hat, hread]
  decide

theorem dquot_in_first_group_names_record_read :
    ∃ item, updateDquot (fun _ => 0) (quotaAt 16) 65 12 1 1 0 false = .ok item ∧
      item.NamesRecordRead (quotaAt 16) 65 12 := by
  have hok : (updateDquot (fun _ => 0) (quotaAt 16) 65 12 1 1 0 false).toBool = true := by
    decide +kernel
  obtain ⟨item, hitem⟩ := exists_ok_of_toBool hok
  refine ⟨item, hitem, (dquot_item_names_record_read_iff hitem).2.2.mpr (.inr ?_)⟩
  exact ⟨1, 680, ⟨0, 16, 4, false⟩, by decide, by decide, by decide⟩

end FsXfs.Quota
