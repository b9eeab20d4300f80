import FsXfs.Basic
import Mathlib.Data.Nat.Size
import Mathlib.Tactic.Positivity
import Mathlib.Tactic.Set

/-!
# The superblock and block addresses

The geometry fields of `superblock.rs`, the checks `Superblock::validate` makes of them, and the
address arithmetic every other part of the driver rests on. A filesystem block number is packed:
the low `agblklog` bits are the block within its allocation group and the rest is the group.
-/

namespace FsXfs

set_option autoImplicit false

structure Superblock where
  blocksize : ℕ
  dblocks : ℕ
  logstart : ℕ
  rootino : ℕ
  agblocks : ℕ
  agcount : ℕ
  logblocks : ℕ
  sectsize : ℕ
  inodesize : ℕ
  inopblock : ℕ
  blocklog : ℕ
  sectlog : ℕ
  inodelog : ℕ
  inopblog : ℕ
  agblklog : ℕ
  inprogress : ℕ
  dirblklog : ℕ
  logsunit : ℕ
  uuid : List UInt8 := List.replicate 16 0
  versionnum : ℕ := 5
  metaUuid : List UInt8 := List.replicate 16 0
  featuresRoCompat : ℕ := 0
  featuresIncompat : ℕ := 0
  features2 : ℕ := 0
  deriving DecidableEq, Repr

namespace Superblock

/-! ## Packed block numbers -/

def splitFsblock (sb : Superblock) (fsblock : ℕ) : ℕ × ℕ :=
  (fsblock / 2 ^ sb.agblklog % 2 ^ 32, fsblock % 2 ^ sb.agblklog % 2 ^ 32)

def fsblockOffset (sb : Superblock) (fsblock : ℕ) : ℕ :=
  let (ag, agBlock) := sb.splitFsblock fsblock
  saturate64 (saturate64 (saturate64 (ag * sb.agblocks) + agBlock) * sb.blocksize)

def groupLength (sb : Superblock) (agno : ℕ) : ℕ :=
  min (sb.dblocks - agno * sb.agblocks) sb.agblocks

def extentInBounds (sb : Superblock) (startblock blockcount : ℕ) : Bool :=
  let last := startblock + (blockcount - 1)
  let agno := startblock / 2 ^ sb.agblklog
  -- `checked_add` refuses a run whose last block number leaves a `u64`
  decide (blockcount ≠ 0) && decide (last < 2 ^ 64) &&
    decide (agno < sb.agcount) && decide (last / 2 ^ sb.agblklog = agno) &&
    decide (3 * sb.sectsize / sb.blocksize < startblock % 2 ^ sb.agblklog) &&
    decide (last % 2 ^ sb.agblklog < sb.groupLength agno)

-- `XFS_SB_VERSION_NUMBITS` is the low four bits
def isV5 (sb : Superblock) : Bool :=
  sb.versionnum % 16 = 5

-- `ro_compat::RMAPBT` and `ro_compat::REFLINK` are bits 1 and 2
def hasRmapbt (sb : Superblock) : Bool :=
  sb.featuresRoCompat.testBit 1

def hasReflink (sb : Superblock) : Bool :=
  sb.featuresRoCompat.testBit 2

-- `incompat::FTYPE` is bit 0, `MOREBITSBIT` bit 15 and `features2_flags::FTYPE` bit 9
def hasFtype (sb : Superblock) : Bool :=
  sb.featuresIncompat.testBit 0 || (sb.versionnum.testBit 15 && sb.features2.testBit 9)

-- `BORGBIT` is bit 14
def hasCaseInsensitiveDirs (sb : Superblock) : Bool :=
  sb.versionnum.testBit 14

def dirblocksize (sb : Superblock) : ℕ :=
  sb.blocksize * 2 ^ sb.dirblklog

/-! ## Packed inode numbers -/

def joinIno (sb : Superblock) (ag agino : ℕ) : ℕ :=
  wrap64 (ag * 2 ^ (sb.inopblog + sb.agblklog)) ||| agino

def splitIno (sb : Superblock) (ino : ℕ) : ℕ × ℕ × ℕ :=
  (ino / 2 ^ (sb.inopblog + sb.agblklog) % 2 ^ 32,
    ino / 2 ^ sb.inopblog % 2 ^ sb.agblklog % 2 ^ 32, ino % 2 ^ sb.inopblog % 2 ^ 32)

def inodeOffset (sb : Superblock) (ino : ℕ) : Except Error ℕ :=
  let (ag, agBlock, offset) := sb.splitIno ino
  if sb.agcount ≤ ag then
    .error (.badSuperblock s!"inode {ino} names allocation group {ag}, but there are only {sb.agcount}")
  else
    .ok (wrap64 (ag * sb.agblocks * sb.blocksize + agBlock * sb.blocksize + offset * sb.inodesize))

/-! ## Validation -/

def checkedShl (width base log : ℕ) : Option ℕ :=
  if log < width then some (base * 2 ^ log % 2 ^ width) else none

def hasInternalLog (sb : Superblock) : Bool :=
  sb.logstart ≠ 0

def maxBlocksize : ℕ := 65536

def validateLog (sb : Superblock) : Except Error Unit :=
  if sb.hasInternalLog then
    let (agno, agbno) := sb.splitFsblock sb.logstart
    ensure (agno < sb.agcount ∧ agbno + sb.logblocks ≤ sb.agblocks)
      (.badSuperblock s!"the internal log is {sb.logblocks} blocks at block {agbno} of group {agno}, where the filesystem has {sb.agcount} groups of {sb.agblocks} blocks")
  else
    .ok ()

def validate (sb : Superblock) : Except Error Unit := do
  ensure (512 ≤ sb.blocksize ∧ sb.blocksize ≤ 65536 ∧ sb.blocksize.isPowerOfTwo)
    (.badSuperblock s!"blocksize {sb.blocksize} is not a sane power of two")
  ensure (checkedShl 32 1 sb.blocklog = some sb.blocksize)
    (.badSuperblock s!"blocklog {sb.blocklog} does not describe blocksize {sb.blocksize}")
  ensure (512 ≤ sb.sectsize ∧ sb.sectsize ≤ 32768 ∧ sb.sectsize.isPowerOfTwo)
    (.badSuperblock s!"sectsize {sb.sectsize} is not a sane power of two")
  ensure (checkedShl 16 1 sb.sectlog = some sb.sectsize)
    (.badSuperblock s!"sectlog {sb.sectlog} does not describe sectsize {sb.sectsize}")
  ensure (256 ≤ sb.inodesize ∧ sb.inodesize ≤ 2048 ∧ sb.inodesize.isPowerOfTwo)
    (.badSuperblock s!"inodesize {sb.inodesize} is not a sane power of two")
  ensure (checkedShl 16 1 sb.inodelog = some sb.inodesize)
    (.badSuperblock s!"inodelog {sb.inodelog} does not describe inodesize {sb.inodesize}")
  ensure (sb.inopblock = sb.blocksize / sb.inodesize)
    (.badSuperblock s!"inopblock {sb.inopblock} disagrees with blocksize {sb.blocksize} / inodesize {sb.inodesize}")
  ensure (checkedShl 32 1 sb.inopblog = some sb.inopblock)
    (.badSuperblock s!"inopblog {sb.inopblog} does not describe inopblock {sb.inopblock}")
  ensure (((checkedShl 32 sb.blocksize sb.dirblklog).filter fun size =>
      decide (sb.blocksize ≤ size) && decide (size ≤ maxBlocksize)).isSome = true)
    (.badSuperblock s!"dirblklog {sb.dirblklog} does not describe a directory block between {sb.blocksize} and {maxBlocksize} bytes")
  ensure (sb.agcount ≠ 0) (.badSuperblock "agcount is zero")
  ensure (sb.agblocks ≠ 0) (.badSuperblock "agblocks is zero")
  -- the number of bits `agblocks - 1` takes
  ensure ((sb.agblocks - 1).size ≤ sb.agblklog ∧ sb.agblklog ≤ 32)
    (.badSuperblock s!"agblklog {sb.agblklog} does not describe agblocks {sb.agblocks}")
  ensure (sb.dblocks ≤ sb.agcount * sb.agblocks)
    (.badSuperblock s!"agcount {sb.agcount} * agblocks {sb.agblocks} = {sb.agcount * sb.agblocks} does not cover dblocks {sb.dblocks}")
  sb.validateLog
  ensure (sb.rootino ≠ 0) (.badSuperblock "root inode number is zero")
  ensure (sb.inprogress = 0)
    (.badSuperblock "sb_inprogress set — mkfs did not finish writing this volume")

/-- A superblock as `parse` returns it: every field fits the type it was read into, and the
structural checks passed. -/
structure Accepted (sb : Superblock) : Prop where
  dblocks_lt : sb.dblocks < 2 ^ 64
  logstart_lt : sb.logstart < 2 ^ 64
  agblocks_lt : sb.agblocks < 2 ^ 32
  agcount_lt : sb.agcount < 2 ^ 32
  logblocks_lt : sb.logblocks < 2 ^ 32
  logsunit_lt : sb.logsunit < 2 ^ 32
  uuid_length : sb.uuid.length = 16
  valid : sb.validate = .ok ()

instance (sb : Superblock) : Decidable sb.Accepted :=
  decidable_of_iff (sb.dblocks < 2 ^ 64 ∧ sb.logstart < 2 ^ 64 ∧ sb.agblocks < 2 ^ 32 ∧
    sb.agcount < 2 ^ 32 ∧ sb.logblocks < 2 ^ 32 ∧ sb.logsunit < 2 ^ 32 ∧ sb.uuid.length = 16 ∧
      sb.validate = .ok ())
    ⟨fun ⟨h₁, h₂, h₃, h₄, h₅, h₆, h₇, h₈⟩ => ⟨h₁, h₂, h₃, h₄, h₅, h₆, h₇, h₈⟩,
      fun ⟨h₁, h₂, h₃, h₄, h₅, h₆, h₇, h₈⟩ => ⟨h₁, h₂, h₃, h₄, h₅, h₆, h₇, h₈⟩⟩

/-! ## What acceptance gives -/

theorem checkedShl_one {width log n : ℕ} (h : checkedShl width 1 log = some n) :
    log < width ∧ n = 2 ^ log := by
  unfold checkedShl at h
  split at h
  · next hlt =>
    have hpow : 2 ^ log < 2 ^ width := Nat.pow_lt_pow_right (by decide) hlt
    rw [Nat.one_mul, Nat.mod_eq_of_lt hpow] at h
    exact ⟨hlt, (Option.some.inj h).symm⟩
  · cases h

structure Geometry (sb : Superblock) : Prop where
  blocksize_ge : 512 ≤ sb.blocksize
  blocksize_le : sb.blocksize ≤ 65536
  blocksize_eq : sb.blocksize = 2 ^ sb.blocklog
  sectsize_ge : 512 ≤ sb.sectsize
  agcount_pos : 0 < sb.agcount
  agblocks_pos : 0 < sb.agblocks
  agblocks_le : sb.agblocks ≤ 2 ^ sb.agblklog
  agblklog_le : sb.agblklog ≤ 32
  dblocks_le : sb.dblocks ≤ sb.agcount * sb.agblocks

variable {sb : Superblock}

theorem Accepted.geometry (h : sb.Accepted) : sb.Geometry := by
  have hv := h.valid
  simp only [validate, bind_eq_ok, ensure_eq_ok, exists_and_left, exists_const] at hv
  obtain ⟨hbs, hlog, hss, -, -, -, -, -, -, hagc, hagb, hagl, hdb, -⟩ := hv
  have hsize : sb.agblocks - 1 < 2 ^ sb.agblklog := Nat.size_le.mp hagl.1
  exact
    { blocksize_ge := hbs.1
      blocksize_le := hbs.2.1
      blocksize_eq := (checkedShl_one hlog).2
      sectsize_ge := hss.1
      agcount_pos := Nat.pos_of_ne_zero hagc
      agblocks_pos := Nat.pos_of_ne_zero hagb
      agblocks_le := by omega
      agblklog_le := hagl.2
      dblocks_le := hdb }

theorem Geometry.basicBlocks (h : sb.Geometry) : 512 ∣ sb.blocksize := by
  have hle : 2 ^ 9 ≤ 2 ^ sb.blocklog := h.blocksize_eq ▸ h.blocksize_ge
  rw [h.blocksize_eq]
  exact pow_dvd_pow 2 ((Nat.pow_le_pow_iff_right (by decide)).mp hle)

theorem Accepted.sectors (h : sb.Accepted) :
    sb.sectsize ≤ 32768 ∧ sb.sectsize = 2 ^ sb.sectlog := by
  have hv := h.valid
  simp only [validate, bind_eq_ok, ensure_eq_ok, exists_and_left, exists_const] at hv
  obtain ⟨-, -, hss, hslog, -⟩ := hv
  exact ⟨hss.2.1, (checkedShl_one hslog).2⟩

theorem Accepted.directories (h : sb.Accepted) :
    sb.dirblocksize ≤ 65536 ∧ sb.dirblocksize = 2 ^ (sb.blocklog + sb.dirblklog) := by
  have hv := h.valid
  simp only [validate, bind_eq_ok, ensure_eq_ok, exists_and_left, exists_const] at hv
  obtain ⟨hbs, hlog, -, -, -, -, -, -, hdir, -⟩ := hv
  have hpow : sb.dirblocksize = 2 ^ (sb.blocklog + sb.dirblklog) := by
    rw [dirblocksize, (checkedShl_one hlog).2, pow_add]
  refine ⟨?_, hpow⟩
  obtain ⟨size, hsize⟩ := Option.isSome_iff_exists.mp hdir
  obtain ⟨hshl, hrange⟩ := Option.filter_eq_some_iff.mp hsize
  simp only [Bool.and_eq_true, decide_eq_true_eq] at hrange
  unfold checkedShl at hshl
  split at hshl
  · have hmod : sb.dirblocksize % 2 ^ 32 = size := Option.some.inj hshl
    by_cases hwrap : sb.blocklog + sb.dirblklog < 32
    · rw [Nat.mod_eq_of_lt (by rw [hpow]; exact Nat.pow_lt_pow_right (by decide) hwrap)] at hmod
      exact hmod ▸ hrange.2
    · -- a shift past the word leaves nothing
      have hzero : sb.dirblocksize % 2 ^ 32 = 0 := by
        rw [hpow]
        exact Nat.mod_eq_zero_of_dvd (pow_dvd_pow 2 (by omega))
      omega
  · cases hshl

theorem Accepted.inodes (h : sb.Accepted) :
    256 ≤ sb.inodesize ∧ sb.inodesize ≤ 2048 ∧ sb.inopblock = 2 ^ sb.inopblog ∧
      sb.inopblock * sb.inodesize = sb.blocksize := by
  have hv := h.valid
  simp only [validate, bind_eq_ok, ensure_eq_ok, exists_and_left, exists_const] at hv
  obtain ⟨-, hblog, -, -, hisize, hilog, hinop, hinlog, -⟩ := hv
  have hblock := (checkedShl_one hblog).2
  have hinode := (checkedShl_one hilog).2
  have hper := (checkedShl_one hinlog).2
  refine ⟨hisize.1, hisize.2.1, hper, ?_⟩
  have hpos : 0 < sb.blocksize / sb.inodesize := by
    rw [← hinop, hper]
    positivity
  have hle : 2 ^ sb.inodelog ≤ 2 ^ sb.blocklog := by
    rw [← hblock, ← hinode]
    exact (Nat.div_pos_iff.mp hpos).2
  have hdvd : sb.inodesize ∣ sb.blocksize := by
    rw [hblock, hinode]
    exact pow_dvd_pow 2 ((Nat.pow_le_pow_iff_right (by decide)).mp hle)
  rw [hinop, Nat.div_mul_cancel hdvd]

/-! ## Inode numbers -/

theorem joinIno_eq {ag agino : ℕ} (hag : ag * 2 ^ (sb.inopblog + sb.agblklog) < 2 ^ 64)
    (hagino : agino < 2 ^ (sb.inopblog + sb.agblklog)) :
    sb.joinIno ag agino = ag * 2 ^ (sb.inopblog + sb.agblklog) + agino := by
  rw [joinIno, wrap64, Nat.mod_eq_of_lt hag, Nat.mul_comm, Nat.two_pow_add_eq_or_of_lt hagino]

section

variable (hsb : sb.Accepted) {agBlock offset : ℕ} (hb : agBlock < sb.agblocks)
  (ho : offset < sb.inopblock)

include hsb hb ho

theorem agino_lt_pow : agBlock * sb.inopblock + offset < 2 ^ (sb.inopblog + sb.agblklog) := by
  obtain ⟨-, -, hper, -⟩ := hsb.inodes
  have hin := Nat.mul_le_mul_right sb.inopblock (le_trans hb hsb.geometry.agblocks_le)
  rw [Nat.succ_mul] at hin
  rw [Nat.pow_add, ← hper, Nat.mul_comm sb.inopblock]
  omega

theorem splitIno_eq {ag : ℕ} (hag : ag < sb.agcount) :
    sb.splitIno (ag * 2 ^ (sb.inopblog + sb.agblklog) + (agBlock * sb.inopblock + offset)) =
      (ag, agBlock, offset) := by
  obtain ⟨hisize, -, hper, hfill⟩ := hsb.inodes
  have hgeo := hsb.geometry
  have hsmall := Nat.le_mul_of_pos_right sb.inopblock (show 0 < sb.inodesize by omega)
  have hoff : offset < 2 ^ sb.inopblog := hper ▸ ho
  have hsum : ag * 2 ^ (sb.inopblog + sb.agblklog) + (agBlock * sb.inopblock + offset) =
      (ag * 2 ^ sb.agblklog + agBlock) * 2 ^ sb.inopblog + offset := by
    rw [hper, Nat.pow_add, Nat.add_mul, Nat.mul_assoc ag, Nat.mul_comm (2 ^ sb.agblklog),
      Nat.add_assoc]
  obtain ⟨htop, -⟩ := mul_add_div_mod ag (agino_lt_pow hsb hb ho)
  obtain ⟨hhigh, hlow⟩ := mul_add_div_mod (ag * 2 ^ sb.agblklog + agBlock) hoff
  obtain ⟨-, hmid⟩ := mul_add_div_mod ag (lt_of_lt_of_le hb hgeo.agblocks_le)
  have hcount := hsb.agcount_lt
  have hblocks := hsb.agblocks_lt
  have hbs := hgeo.blocksize_le
  rw [splitIno, htop, hsum, hhigh, hlow, hmid, Nat.mod_eq_of_lt (by omega),
    Nat.mod_eq_of_lt (by omega), Nat.mod_eq_of_lt (by omega)]

end

/-! ## Addresses -/

def linearBlock (sb : Superblock) (fsblock : ℕ) : ℕ :=
  fsblock / 2 ^ sb.agblklog * sb.agblocks + fsblock % 2 ^ sb.agblklog

theorem fsblockOffset_split (hbs : 0 < sb.blocksize) (fsblock : ℕ) :
    sb.fsblockOffset fsblock = saturate64 (((sb.splitFsblock fsblock).1 * sb.agblocks +
      (sb.splitFsblock fsblock).2) * sb.blocksize) := by
  have hinner : ∀ a b, saturate64 (saturate64 a + b) = saturate64 (a + b) := by
    intro a b
    unfold saturate64
    omega
  unfold fsblockOffset
  dsimp only
  rw [hinner, saturate64_mul _ hbs]

section

variable (hsb : sb.Accepted)

include hsb

section

variable {fsblock : ℕ} (hag : fsblock / 2 ^ sb.agblklog < sb.agcount)

include hag

theorem splitFsblock_eq :
    sb.splitFsblock fsblock = (fsblock / 2 ^ sb.agblklog, fsblock % 2 ^ sb.agblklog) := by
  have hmask : fsblock % 2 ^ sb.agblklog < 2 ^ 32 := lt_of_lt_of_le (Nat.mod_lt _ (by positivity))
    (Nat.pow_le_pow_right (by decide) hsb.geometry.agblklog_le)
  rw [splitFsblock, Nat.mod_eq_of_lt (lt_trans hag hsb.agcount_lt), Nat.mod_eq_of_lt hmask]

theorem fsblockOffset_linear :
    sb.fsblockOffset fsblock = saturate64 (sb.linearBlock fsblock * sb.blocksize) := by
  have hbs := hsb.geometry.blocksize_ge
  rw [fsblockOffset_split (by omega), splitFsblock_eq hsb hag, linearBlock]

/-- A block of a group there is, whose address stops short of the largest `u64`, is where its linear
number says. -/
theorem fsblockOffset_eq (hlt : sb.fsblockOffset fsblock < 2 ^ 64 - 1) :
    sb.fsblockOffset fsblock = sb.linearBlock fsblock * sb.blocksize := by
  rw [fsblockOffset_linear hsb hag] at hlt ⊢
  exact saturate64_eq_self hlt

end

theorem splitFsblock_pack {agno agbno : ℕ} (hag : agno < sb.agcount) (hb : agbno < sb.agblocks) :
    sb.splitFsblock (agno * 2 ^ sb.agblklog + agbno) = (agno, agbno) := by
  have hin : agbno < 2 ^ sb.agblklog := lt_of_lt_of_le hb hsb.geometry.agblocks_le
  obtain ⟨hdiv, hmod⟩ := mul_add_div_mod agno hin
  rw [splitFsblock_eq hsb (hdiv.symm ▸ hag), hdiv, hmod]

end

/-- What `extent_in_bounds` accepts: each block of the run lies in the group the run starts in,
past that group's headers and before its end. -/
theorem extentInBounds_spec {startblock blockcount : ℕ}
    (h : sb.extentInBounds startblock blockcount = true) :
    blockcount ≠ 0 ∧ startblock / 2 ^ sb.agblklog < sb.agcount ∧
      ∀ i < blockcount,
        (startblock + i) / 2 ^ sb.agblklog = startblock / 2 ^ sb.agblklog ∧
        3 * sb.sectsize / sb.blocksize < (startblock + i) % 2 ^ sb.agblklog ∧
        (startblock + i) % 2 ^ sb.agblklog < sb.groupLength (startblock / 2 ^ sb.agblklog) := by
  simp only [extentInBounds, Bool.and_eq_true, decide_eq_true_eq] at h
  obtain ⟨⟨⟨⟨⟨hne, -⟩, hag⟩, hsame⟩, hfirst⟩, hlast⟩ := h
  refine ⟨hne, hag, fun i hi => ?_⟩
  set p := 2 ^ sb.agblklog with hp
  have hlo : startblock / p ≤ (startblock + i) / p := Nat.div_le_div_right (by omega)
  have hhi : (startblock + i) / p ≤ (startblock + (blockcount - 1)) / p :=
    Nat.div_le_div_right (by omega)
  have hdiv : (startblock + i) / p = startblock / p := by omega
  have h0 := Nat.div_add_mod startblock p
  have h1 := Nat.div_add_mod (startblock + i) p
  have h2 := Nat.div_add_mod (startblock + (blockcount - 1)) p
  rw [hdiv] at h1
  rw [hsame] at h2
  exact ⟨hdiv, by omega, by omega⟩

end Superblock

/-! ## A small volume -/

def twoGroups : Superblock where
  blocksize := 1024
  dblocks := 48
  logstart := 8
  rootino := 64
  agblocks := 24
  agcount := 2
  logblocks := 8
  sectsize := 512
  inodesize := 512
  inopblock := 2
  blocklog := 10
  sectlog := 9
  inodelog := 9
  inopblog := 1
  agblklog := 5
  inprogress := 0
  dirblklog := 0
  logsunit := 0

theorem twoGroups_accepted : twoGroups.Accepted := by
  decide

end FsXfs
