import FsXfs.Group.Alloc
import FsXfs.Directory.Listing

/-!
# Addresses

A block has a packed number, a linear one, and a byte address that four modules compute for
themselves; an inode number comes apart into its group, block and slot. `Superblock` has the
functions, and this module says where they agree.
-/

namespace FsXfs

open FsXfs.Group

set_option autoImplicit false

/-! ## Packed block numbers -/

def packBlock (sb : Superblock) (agno agblock : ℕ) : ℕ :=
  (agno <<< sb.agblklog) ||| agblock

section

variable {sb : Superblock} {agno : ℕ}

theorem packBlock_eq {agblock : ℕ} (h : agblock < 2 ^ sb.agblklog) :
    packBlock sb agno agblock = agno * 2 ^ sb.agblklog + agblock := by
  rw [packBlock, ← Nat.shiftLeft_add_eq_or_of_lt h, Nat.shiftLeft_eq]

theorem packBlock_div_mod {agblock : ℕ} (h : agblock < 2 ^ sb.agblklog) :
    packBlock sb agno agblock / 2 ^ sb.agblklog = agno ∧
      packBlock sb agno agblock % 2 ^ sb.agblklog = agblock := by
  rw [packBlock_eq h]
  exact mul_add_div_mod agno h

theorem splitFsblock_packBlock {agblock : ℕ} (hsb : sb.Accepted) (hag : agno < sb.agcount)
    (hb : agblock < sb.agblocks) : sb.splitFsblock (packBlock sb agno agblock) = (agno, agblock) := by
  rw [packBlock_eq (lt_of_lt_of_le hb hsb.geometry.agblocks_le)]
  exact Superblock.splitFsblock_pack hsb hag hb

theorem packBlock_add {agblock i : ℕ} (h : agblock + i < 2 ^ sb.agblklog) :
    packBlock sb agno agblock + i = packBlock sb agno (agblock + i) := by
  rw [packBlock_eq h, packBlock_eq (by omega), Nat.add_assoc]

theorem packBlock_inj {agno' b b' : ℕ} (hb : b < 2 ^ sb.agblklog) (hb' : b' < 2 ^ sb.agblklog)
    (h : packBlock sb agno b = packBlock sb agno' b') :
    agno = agno' ∧ b = b' := by
  obtain ⟨hdiv, hmod⟩ := @packBlock_div_mod sb agno b hb
  obtain ⟨hdiv', hmod'⟩ := @packBlock_div_mod sb agno' b' hb'
  rw [h] at hdiv hmod
  exact ⟨hdiv.symm.trans hdiv', hmod.symm.trans hmod'⟩

end

/-! ## Addresses -/

def Addressable (sb : Superblock) : Prop :=
  sb.agcount * sb.agblocks * sb.blocksize ≤ 2 ^ 64

instance (sb : Superblock) : Decidable (Addressable sb) :=
  inferInstanceAs (Decidable (_ ≤ _))

def InBlock (sb : Superblock) (address agno agbno : ℕ) : Prop :=
  (agno * sb.agblocks + agbno) * sb.blocksize ≤ address ∧
    address < (agno * sb.agblocks + agbno + 1) * sb.blocksize

section

variable {sb : Superblock} {agno agbno : ℕ}

theorem inBlock_inj {address agno' agbno' : ℕ} (h : InBlock sb address agno agbno)
    (h' : InBlock sb address agno' agbno') (hlt : agbno < sb.agblocks) (hlt' : agbno' < sb.agblocks) :
    agno = agno' ∧ agbno = agbno' := by
  have hline := (Nat.div_eq_of_lt_le h.1 h.2).symm.trans (Nat.div_eq_of_lt_le h'.1 h'.2)
  obtain ⟨hag, hbno⟩ := mul_add_div_mod agno hlt
  obtain ⟨hag', hbno'⟩ := mul_add_div_mod agno' hlt'
  rw [hline] at hag hbno
  exact ⟨hag.symm.trans hag', hbno.symm.trans hbno'⟩

theorem block_end_le (hfit : Addressable sb) (hag : agno < sb.agcount) (hb : agbno < sb.agblocks) :
    (agno * sb.agblocks + agbno + 1) * sb.blocksize ≤ 2 ^ 64 := by
  have hgroup : (agno + 1) * sb.agblocks ≤ sb.agcount * sb.agblocks := Nat.mul_le_mul_right _ hag
  rw [Nat.succ_mul] at hgroup
  exact le_trans (Nat.mul_le_mul_right _ (by omega)) hfit

theorem inBlock_of_offset (hsb : sb.Accepted) (hfit : Addressable sb) (hag : agno < sb.agcount)
    (hb : agbno < sb.agblocks) {within len i : ℕ} (hlen : within + len ≤ sb.blocksize)
    (hi : i < len) :
    InBlock sb (wrap64 (sb.fsblockOffset (packBlock sb agno agbno) + within) + i) agno agbno := by
  have hend := block_end_le hfit hag hb
  rw [Nat.succ_mul] at hend
  rw [Superblock.fsblockOffset_split (by omega), splitFsblock_packBlock hsb hag hb]
  dsimp only
  rw [saturate64_of_lt (by omega), wrap64, InBlock, Nat.succ_mul, Nat.mod_eq_of_lt (by omega)]
  omega

theorem holds_packBlock {e : Extent} {n : ℕ}
    (h : sb.extentInBounds e.startblock e.blockcount = true) (hn : e.Holds n) :
    ∃ agno agbno, n = packBlock sb agno agbno ∧ agno < sb.agcount ∧ lastHeaderBlock sb < agbno ∧
      agbno < sb.agblocks := by
  obtain ⟨-, hag, hall⟩ := Superblock.extentInBounds_spec h
  obtain ⟨hge, hlt⟩ := hn
  obtain ⟨hdiv, hlo, hhi⟩ := hall (n - e.startblock) (by omega)
  rw [show e.startblock + (n - e.startblock) = n by omega] at hdiv hlo hhi
  refine ⟨n / 2 ^ sb.agblklog, n % 2 ^ sb.agblklog, ?_, hdiv ▸ hag, hlo, ?_⟩
  · rw [packBlock_eq (Nat.mod_lt _ (Nat.two_pow_pos _)), Nat.div_add_mod']
  · exact lt_of_lt_of_le hhi (min_le_right _ _)

end

/-! ## Addresses of 64 bits -/

def blockStart (sb : Superblock) (phys : ℕ) : ℕ :=
  (phys / 2 ^ sb.agblklog * sb.agblocks + phys % 2 ^ sb.agblklog) * sb.blocksize

theorem saturate64_of_ge {n : ℕ} (h : 2 ^ 64 ≤ n) : saturate64 n = 2 ^ 64 - 1 := by
  unfold saturate64
  omega

section

variable {sb : Superblock}

theorem fsblockOffset_eq_saturate (hsb : sb.Accepted) {e : Extent} {phys : ℕ}
    (hbounds : sb.extentInBounds e.startblock e.blockcount = true) (hholds : e.Holds phys) :
    sb.fsblockOffset phys = saturate64 (blockStart sb phys) ∧ sb.blocksize ≤ blockStart sb phys := by
  obtain ⟨agno, agbno, rfl, hag, hheader, hb⟩ := holds_packBlock hbounds hholds
  obtain ⟨hdiv, hmod⟩ := packBlock_div_mod (lt_of_lt_of_le hb hsb.geometry.agblocks_le)
  refine ⟨Superblock.fsblockOffset_linear hsb (hdiv.symm ▸ hag), ?_⟩
  exact Nat.le_mul_of_pos_left _ (by omega)

theorem block_end_le_of_dvd (hsb : sb.Accepted) {start : ℕ} (hdvd : sb.blocksize ∣ start)
    (h : start < 2 ^ 64) : start + sb.blocksize ≤ 2 ^ 64 := by
  have hgeo := hsb.geometry
  have hlog : sb.blocklog ≤ 16 := by
    by_contra hgt
    have hle : 2 ^ 17 ≤ 2 ^ sb.blocklog := Nat.pow_le_pow_right (by decide) (by omega)
    have := hgeo.blocksize_le
    have := hgeo.blocksize_eq
    omega
  have hwhole : sb.blocksize ∣ 2 ^ 64 := by
    rw [hgeo.blocksize_eq]
    exact pow_dvd_pow 2 (by omega)
  obtain ⟨m, hm⟩ := hwhole
  obtain ⟨k, rfl⟩ := hdvd
  have hkm : k < m := by
    rw [hm] at h
    exact lt_of_mul_lt_mul_left h (Nat.zero_le _)
  rw [hm, ← Nat.mul_succ]
  exact Nat.mul_le_mul_left _ hkm

/-- The four addresses of a block are the place its linear number gives, inside the data section. -/
def AddressesAgree (sb : Superblock) (n : ℕ) : Prop :=
  sb.linearBlock n < sb.dblocks ∧
    sb.fsblockOffset n = blockStart sb n ∧ Directory.blknoOfFsbno sb n * 512 = blockStart sb n ∧
    expectedBlkno sb (sb.splitFsblock n).1 (sb.splitFsblock n).2 * 512 = blockStart sb n ∧
    wrap64 (agStart sb (sb.splitFsblock n).1 + (sb.splitFsblock n).2 * sb.blocksize) =
      blockStart sb n

section

variable (hsb : sb.Accepted) {e : Extent} {n : ℕ}
  (hbounds : sb.extentInBounds e.startblock e.blockcount = true) (hn : e.Holds n)

include hsb hbounds hn

theorem addressesAgree_iff : AddressesAgree sb n ↔ blockStart sb n < 2 ^ 64 := by
  have hoffset := (fsblockOffset_eq_saturate hsb hbounds hn).1
  have hsection : sb.linearBlock n < sb.dblocks := by
    obtain ⟨-, -, hall⟩ := Superblock.extentInBounds_spec hbounds
    obtain ⟨hge, hlt⟩ := hn
    obtain ⟨hdiv, -, hhi⟩ := hall (n - e.startblock) (by omega)
    rw [← hdiv, show e.startblock + (n - e.startblock) = n by omega, Superblock.groupLength] at hhi
    unfold Superblock.linearBlock
    omega
  obtain ⟨agno, agbno, rfl, hag, -, hb⟩ := holds_packBlock hbounds hn
  have hwhole : 512 ∣ blockStart sb (packBlock sb agno agbno) :=
    Dvd.dvd.mul_left hsb.geometry.basicBlocks _
  obtain ⟨hdiv, hmod⟩ := packBlock_div_mod (lt_of_lt_of_le hb hsb.geometry.agblocks_le)
  have hstart : blockStart sb (packBlock sb agno agbno) =
      (agno * sb.agblocks + agbno) * sb.blocksize := by rw [blockStart, hdiv, hmod]
  constructor
  · rintro ⟨-, hsame, -⟩
    rw [hoffset] at hsame
    unfold saturate64 at hsame
    omega
  · intro hlt
    rw [saturate64_of_lt hlt] at hoffset
    rw [AddressesAgree, splitFsblock_packBlock hsb hag hb]
    refine ⟨hsection, hoffset, ?_, ?_, ?_⟩
    · rw [Directory.blknoOfFsbno, hoffset, Nat.div_mul_cancel hwhole]
    · rw [expectedBlkno, ← hstart, wrap64, Nat.mod_eq_of_lt hlt, Nat.div_mul_cancel hwhole]
    · rw [agStart, ← Nat.add_mul, ← hstart, wrap64, Nat.mod_eq_of_lt hlt]

theorem fsblockOffset_inj (hlt : blockStart sb n < 2 ^ 64) {e' : Extent} {n' : ℕ}
    (hbounds' : sb.extentInBounds e'.startblock e'.blockcount = true) (hn' : e'.Holds n')
    (h : sb.fsblockOffset n = sb.fsblockOffset n') : n = n' := by
  have hgeo := hsb.geometry
  rw [(fsblockOffset_eq_saturate hsb hbounds hn).1, (fsblockOffset_eq_saturate hsb hbounds' hn').1,
    saturate64_of_lt hlt] at h
  -- The saturated address is odd, and a block starts on a basic block.
  have hwhole : 512 ∣ blockStart sb n := Dvd.dvd.mul_left hgeo.basicBlocks _
  have hstart : blockStart sb n = blockStart sb n' := by
    rw [h] at hwhole ⊢
    unfold saturate64 at hwhole ⊢
    omega
  obtain ⟨agno, agbno, rfl, -, -, hb⟩ := holds_packBlock hbounds hn
  obtain ⟨agno', agbno', rfl, -, -, hb'⟩ := holds_packBlock hbounds' hn'
  have hblock : ∀ ag b, b < sb.agblocks → InBlock sb (blockStart sb (packBlock sb ag b)) ag b := by
    intro ag b hlt
    obtain ⟨hdiv, hmod⟩ := packBlock_div_mod (lt_of_lt_of_le hlt hgeo.agblocks_le)
    have hbs := hgeo.blocksize_ge
    rw [blockStart, hdiv, hmod, InBlock, Nat.succ_mul]
    omega
  obtain ⟨rfl, rfl⟩ := inBlock_inj (hblock agno agbno hb) (hstart ▸ hblock agno' agbno' hb') hb hb'
  rfl

end

/-- Inode numbers come apart and together, and the four addresses of a block are one place inside the
data section that no other block has, exactly where the group's inode numbers fit 32 bits and the
block starts below `2 ^ 64`. -/
theorem geometry_consistent_iff (hsb : sb.Accepted) :
    (∀ ino < 2 ^ 64, ino / 2 ^ (sb.inopblog + sb.agblklog) < sb.agcount →
      ino / 2 ^ sb.inopblog % 2 ^ sb.agblklog < sb.agblocks →
      (sb.joinIno (sb.splitIno ino).1
          (((sb.splitIno ino).2.1 * sb.inopblock + (sb.splitIno ino).2.2) % 2 ^ 32) = ino ↔
        (sb.splitIno ino).2.1 * sb.inopblock + (sb.splitIno ino).2.2 < 2 ^ 32)) ∧
      ∀ (e : Extent) n, sb.extentInBounds e.startblock e.blockcount = true → e.Holds n →
        (AddressesAgree sb n ∧ (∀ (e' : Extent) n',
          sb.extentInBounds e'.startblock e'.blockcount = true → e'.Holds n' →
            sb.fsblockOffset n = sb.fsblockOffset n' → n = n') ↔ blockStart sb n < 2 ^ 64) := by
  constructor
  · intro ino hino hag hb
    obtain ⟨-, -, hper, -⟩ := hsb.inodes
    have ho : ino % 2 ^ sb.inopblog < sb.inopblock := by
      rw [hper]
      exact Nat.mod_lt _ (Nat.two_pow_pos _)
    have hlow := Nat.div_add_mod ino (2 ^ sb.inopblog)
    have hhigh := Nat.div_add_mod (ino / 2 ^ sb.inopblog) (2 ^ sb.agblklog)
    rw [Nat.div_div_eq_div_mul, ← Nat.pow_add] at hhigh
    have hsplit := Superblock.splitIno_eq hsb hb ho hag
    have hroom := Superblock.agino_lt_pow hsb hb ho
    have hparts : ino / 2 ^ (sb.inopblog + sb.agblklog) * 2 ^ (sb.inopblog + sb.agblklog) +
        (ino / 2 ^ sb.inopblog % 2 ^ sb.agblklog * sb.inopblock + ino % 2 ^ sb.inopblog) = ino := by
      rw [hper, Nat.mul_comm _ (2 ^ sb.inopblog), ← Nat.add_assoc, Nat.pow_add, Nat.mul_left_comm,
        ← Nat.pow_add, ← Nat.mul_add, Nat.mul_comm _ (2 ^ sb.agblklog), hhigh, hlow]
    rw [hparts] at hsplit
    rw [hsplit]
    dsimp only
    rw [Superblock.joinIno_eq (by omega) (lt_of_le_of_lt (Nat.mod_le _ _) hroom)]
    omega
  · intro e n hbounds hn
    rw [addressesAgree_iff hsb hbounds hn]
    refine ⟨And.left, fun hlt => ⟨hlt, fun e' n' hbounds' hn' heq => ?_⟩⟩
    exact fsblockOffset_inj hsb hbounds hn hlt hbounds' hn' heq

theorem geometry_consistent_twoGroups :
    twoGroups.joinIno 1 5 = 69 ∧ AddressesAgree twoGroups (32 + 9) := by
  obtain ⟨hinodes, hblocks⟩ := geometry_consistent_iff twoGroups_accepted
  exact ⟨(hinodes 69 (by decide) (by decide) (by decide)).mpr (by decide),
    ((hblocks ⟨0, 32 + 8, 4, false⟩ (32 + 9) (by decide) ⟨by decide, by decide⟩).mpr (by decide)).1⟩

end

def hugeGroups : Superblock where
  blocksize := 65536
  dblocks := 2 ^ 50
  logstart := 8
  rootino := 64
  agblocks := 2 ^ 28
  agcount := 2 ^ 22
  logblocks := 8
  sectsize := 512
  inodesize := 512
  inopblock := 128
  blocklog := 16
  sectlog := 9
  inodelog := 9
  inopblog := 7
  agblklog := 28
  inprogress := 0
  dirblklog := 0
  logsunit := 0

theorem hugeGroups_accepted : hugeGroups.Accepted where
  dblocks_lt := by decide
  logstart_lt := by decide
  agblocks_lt := by decide
  agcount_lt := by decide
  logblocks_lt := by decide
  logsunit_lt := by decide
  uuid_length := by decide
  valid := by decide +kernel

/-- A number past 32 bits in its group comes together as another, and of a block past 64 bits one
address stops at the end and the other comes round. -/
theorem hugeGroups_inconsistent :
    hugeGroups.Accepted ∧ hugeGroups.splitIno (2 ^ 34) = (0, 2 ^ 27, 0) ∧
      hugeGroups.joinIno 0 (2 ^ 27 * hugeGroups.inopblock % 2 ^ 32) = 0 ∧
      hugeGroups.extentInBounds (2 ^ 49 + 8) 1 = true ∧
      Directory.blknoOfFsbno hugeGroups (2 ^ 49 + 8) = 2 ^ 55 - 1 ∧
      hugeGroups.splitFsblock (2 ^ 49 + 8) = (2 ^ 21, 8) ∧
      expectedBlkno hugeGroups (2 ^ 21) 8 = 1024 := by
  refine ⟨hugeGroups_accepted, ?_⟩
  decide +kernel

end FsXfs
