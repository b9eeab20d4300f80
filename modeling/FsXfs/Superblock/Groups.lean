import FsXfs.Superblock.Sector

/-!
# Groups, their headers and the log

What an accepted superblock says about where each allocation group starts and ends and where the
log lies. Every group starts with four header sectors, the last group may be shorter than the
others, and an internal log is written one basic block at a time from `fsblock_offset(logstart)`.
-/

namespace FsXfs.Superblock

open WholeSuperblock

set_option autoImplicit false

def agLength (sb : Superblock) (ag : ℕ) : Except Error ℕ := do
  ensure (ag * sb.agblocks ≤ sb.dblocks) (.panicked "attempt to subtract with overflow")
  return min (sb.dblocks - ag * sb.agblocks) sb.agblocks

def headerBytes (sb : Superblock) : ℕ :=
  4 * sb.sectsize

def groupStart (sb : Superblock) (ag : ℕ) : ℕ :=
  ag * sb.agblocks * sb.blocksize

def logGroup (sb : Superblock) : ℕ :=
  (sb.splitFsblock sb.logstart).1

def logBlock (sb : Superblock) : ℕ :=
  (sb.splitFsblock sb.logstart).2

/-- The address of one byte of a record's basic block, in the arithmetic of a `u64`. -/
def logByte (sb : Superblock) (block i : ℕ) : ℕ :=
  wrap64 (sb.fsblockOffset sb.logstart + block * 512 + i)

/-- Every group starts inside the data section, the log lies between its group's headers and the
end of that group, and no byte written to the log is a header's or past the data section. -/
structure Sectioned (sb : Superblock) : Prop where
  starts : ∀ ag < sb.agcount, ag * sb.agblocks < sb.dblocks
  lengths : ∀ ag < sb.agcount, ∃ length, sb.agLength ag = .ok length
  afterHeaders : sb.hasInternalLog = true → sb.headerBytes ≤ sb.logBlock * sb.blocksize
  insideGroup : sb.hasInternalLog = true →
    sb.logGroup * sb.agblocks + sb.logBlock + sb.logblocks ≤
      min sb.dblocks ((sb.logGroup + 1) * sb.agblocks)
  written : sb.hasInternalLog = true →
    ∀ block < sb.logblocks * sb.blocksize / 512, ∀ i < 512,
      sb.logByte block i < sb.dblocks * sb.blocksize ∧
        ∀ ag < sb.agcount, ¬(sb.groupStart ag ≤ sb.logByte block i ∧
          sb.logByte block i < sb.groupStart ag + sb.headerBytes)

/-- As many groups as the data section needs, and a log that starts past the blocks its group's
headers take, ends inside what the data section leaves of the group, and has addresses. -/
def Apportioned (sb : Superblock) : Prop :=
  sb.agcount = divCeil sb.dblocks sb.agblocks ∧
    (sb.hasInternalLog = true →
      divCeil sb.headerBytes sb.blocksize ≤ sb.logBlock ∧
        sb.logBlock + sb.logblocks ≤ sb.dblocks - sb.logGroup * sb.agblocks ∧
        (sb.logblocks ≠ 0 →
          (sb.logGroup * sb.agblocks + sb.logBlock + sb.logblocks) * sb.blocksize ≤ 2 ^ 64))

section

variable {sb : Superblock}

theorem divCeil_le_iff {n d m : ℕ} (hd : 0 < d) : divCeil n d ≤ m ↔ n ≤ m * d := by
  constructor
  · intro h
    exact (le_divCeil_mul n hd).trans (Nat.mul_le_mul_right d h)
  · intro h
    rw [← divCeil_mul_self m hd]
    exact Nat.div_le_div_right (by omega)

theorem starts_iff (h : sb.Accepted) :
    (∀ ag < sb.agcount, ag * sb.agblocks < sb.dblocks) ↔
      sb.agcount = divCeil sb.dblocks sb.agblocks := by
  have hg := h.geometry
  have hle : divCeil sb.dblocks sb.agblocks ≤ sb.agcount :=
    (divCeil_le_iff hg.agblocks_pos).mpr hg.dblocks_le
  constructor
  · intro hstarts
    refine le_antisymm ?_ hle
    have hlast := hstarts (sb.agcount - 1) (Nat.sub_lt hg.agcount_pos Nat.one_pos)
    have hnot : ¬divCeil sb.dblocks sb.agblocks ≤ sb.agcount - 1 := fun hc =>
      absurd ((divCeil_le_iff hg.agblocks_pos).mp hc) (Nat.not_le.mpr hlast)
    omega
  · intro hcount ag hag
    by_contra hc
    have := (divCeil_le_iff hg.agblocks_pos).mpr (Nat.not_lt.mp hc)
    omega

theorem Accepted.log (h : sb.Accepted) (hlog : sb.hasInternalLog = true) :
    sb.logGroup < sb.agcount ∧ sb.logBlock + sb.logblocks ≤ sb.agblocks := by
  have hv := h.valid
  simp only [validate, bind_eq_ok, ensure_eq_ok, exists_and_left, exists_const] at hv
  obtain ⟨-, -, -, -, -, -, -, -, -, -, -, -, -, _, hlogged, -⟩ := hv
  rw [validateLog, if_pos hlog] at hlogged
  exact ensure_eq_ok.mp hlogged

theorem fsblockOffset_logstart (h : sb.Accepted) :
    sb.fsblockOffset sb.logstart =
      saturate64 ((sb.logGroup * sb.agblocks + sb.logBlock) * sb.blocksize) := by
  have hbs := h.geometry.blocksize_ge
  exact fsblockOffset_split (by omega) sb.logstart

theorem logByte_eq (h : sb.Accepted) {block i : ℕ}
    (hfits : (sb.logGroup * sb.agblocks + sb.logBlock + sb.logblocks) * sb.blocksize ≤ 2 ^ 64)
    (hblock : block < sb.logblocks * sb.blocksize / 512) (hi : i < 512) :
    sb.logByte block i =
      (sb.logGroup * sb.agblocks + sb.logBlock) * sb.blocksize + (block * 512 + i) := by
  rw [Nat.add_mul] at hfits
  have hstart : (sb.logGroup * sb.agblocks + sb.logBlock) * sb.blocksize < 2 ^ 64 := by omega
  rw [logByte, fsblockOffset_logstart h, saturate64_of_lt hstart, wrap64, Nat.add_assoc]
  exact Nat.mod_eq_of_lt (by omega)

theorem logByte_zero (h : sb.Accepted) (hlog : sb.logblocks ≠ 0)
    (hover : 2 ^ 64 < (sb.logGroup * sb.agblocks + sb.logBlock + sb.logblocks) * sb.blocksize) :
    ∃ block < sb.logblocks * sb.blocksize / 512, ∃ i < 512, sb.logByte block i = 0 := by
  have hg := h.geometry
  have hbasic := hg.basicBlocks
  have hpos : 0 < sb.logblocks * sb.blocksize / 512 := by
    refine Nat.div_pos (le_trans hg.blocksize_ge ?_) (by decide)
    exact Nat.le_mul_of_pos_left _ (Nat.pos_of_ne_zero hlog)
  rw [Nat.add_mul] at hover
  set start := (sb.logGroup * sb.agblocks + sb.logBlock) * sb.blocksize with hstart
  have hdvd : 512 ∣ start := Dvd.dvd.mul_left hbasic _
  have hlogDvd : 512 ∣ sb.logblocks * sb.blocksize := Dvd.dvd.mul_left hbasic _
  have haddr := fsblockOffset_logstart h
  by_cases hlow : start < 2 ^ 64
  · -- the block that would start at the end of the address space starts it again
    rw [saturate64_of_lt hlow] at haddr
    refine ⟨(2 ^ 64 - start) / 512, by omega, 0, by decide, ?_⟩
    rw [logByte, haddr, wrap64, Nat.add_zero]
    have hrest : (2 ^ 64 - start) / 512 * 512 = 2 ^ 64 - start :=
      Nat.div_mul_cancel (Nat.dvd_sub (by decide) hdvd)
    rw [hrest, Nat.add_sub_cancel' hlow.le]
    exact Nat.mod_self _
  · refine ⟨0, hpos, 1, by decide, ?_⟩
    have hsat : saturate64 start = 2 ^ 64 - 1 := by
      rw [saturate64]
      omega
    rw [logByte, haddr, hsat]
    decide

theorem Apportioned.sectioned (h : sb.Accepted) (ha : sb.Apportioned) : sb.Sectioned := by
  have hg := h.geometry
  obtain ⟨hcount, hlogged⟩ := ha
  have hstarts := (starts_iff h).mpr hcount
  have hinside : sb.hasInternalLog = true →
      sb.logGroup * sb.agblocks + sb.logBlock + sb.logblocks ≤
        min sb.dblocks ((sb.logGroup + 1) * sb.agblocks) := by
    intro hlog
    obtain ⟨hgroup, hblocks⟩ := h.log hlog
    have hbefore := hstarts _ hgroup
    obtain ⟨-, hend, -⟩ := hlogged hlog
    rw [Nat.add_mul]
    omega
  have hafter : sb.hasInternalLog = true → sb.headerBytes ≤ sb.logBlock * sb.blocksize :=
    fun hlog => (divCeil_le_iff (by have := hg.blocksize_ge; omega)).mp (hlogged hlog).1
  refine ⟨hstarts, fun ag hag => ?_, hafter, hinside, fun hlog block hblock i hi => ?_⟩
  · rw [agLength, ensure_of (hstarts ag hag).le]
    exact ⟨_, rfl⟩
  · have hne : sb.logblocks ≠ 0 := by
      rintro hzero
      rw [hzero, Nat.zero_mul, Nat.zero_div] at hblock
      exact absurd hblock (Nat.not_lt_zero _)
    have hbyte := logByte_eq h ((hlogged hlog).2.2 hne) hblock hi
    have hend : sb.logByte block i < min sb.dblocks ((sb.logGroup + 1) * sb.agblocks) *
        sb.blocksize := by
      refine lt_of_lt_of_le ?_ (Nat.mul_le_mul_right sb.blocksize (hinside hlog))
      rw [hbyte, Nat.add_mul _ sb.logblocks]
      omega
    have hfirst : sb.groupStart sb.logGroup + sb.headerBytes ≤ sb.logByte block i := by
      rw [hbyte, groupStart, Nat.add_mul]
      have := hafter hlog
      omega
    refine ⟨lt_of_lt_of_le hend (Nat.mul_le_mul_right _ (Nat.min_le_left _ _)), ?_⟩
    rintro ag - ⟨hlo, hhi⟩
    rcases Nat.lt_or_ge sb.logGroup ag with hlt | hge
    · have hnext : (sb.logGroup + 1) * sb.agblocks * sb.blocksize ≤ sb.groupStart ag :=
        Nat.mul_le_mul_right _ (Nat.mul_le_mul_right _ hlt)
      have hgroup := lt_of_lt_of_le hend
        (Nat.mul_le_mul_right sb.blocksize (Nat.min_le_right _ _))
      omega
    · have hprev : sb.groupStart ag ≤ sb.groupStart sb.logGroup :=
        Nat.mul_le_mul_right _ (Nat.mul_le_mul_right _ hge)
      omega

theorem Sectioned.apportioned (h : sb.Accepted) (hs : sb.Sectioned) : sb.Apportioned := by
  have hg := h.geometry
  refine ⟨(starts_iff h).mp hs.starts, fun hlog => ⟨?_, ?_, fun hne => ?_⟩⟩
  · exact (divCeil_le_iff (by have := hg.blocksize_ge; omega)).mpr (hs.afterHeaders hlog)
  · have hend := hs.insideGroup hlog
    omega
  · by_contra hover
    obtain ⟨block, hblock, i, hi, hzero⟩ := logByte_zero h hne (Nat.not_le.mp hover)
    have hnot := (hs.written hlog block hblock i hi).2 0 hg.agcount_pos
    have hsect := hg.sectsize_ge
    exact hnot ⟨by rw [groupStart]; omega, by rw [headerBytes]; omega⟩

end

/-- A superblock that `parse` accepts keeps its groups and its log apart exactly when its counts
say so: `validate` does not ask it to. -/
theorem sectioned_iff (crc32c : List UInt8 → ℕ) (lossy : List UInt8 → List UInt8)
    (buf : List UInt8) (sb : WholeSuperblock) (h : parse crc32c lossy buf = .ok sb) :
    sb.toSuperblock.Sectioned ↔ sb.toSuperblock.Apportioned :=
  ⟨Sectioned.apportioned (parse_accepted crc32c lossy h),
    Apportioned.sectioned (parse_accepted crc32c lossy h)⟩

/-! ## Two superblocks that are accepted -/

def wholeTwoGroups : WholeSuperblock :=
  { twoGroups with
    rblocks := 0, rextents := 0, rbmino := 65, rsumino := 66, rextsize := 4, rbmblocks := 0
    fname := [], rextslog := 0, imaxPct := 25, icount := 64, ifree := 61, fdblocks := 20
    frextents := 0, uquotino := 0, gquotino := 0, qflags := 0, flags := 0, sharedVn := 0
    inoalignmt := 32, unit := 0, width := 0, logsectlog := 0, logsectsize := 0, badFeatures2 := 0
    featuresCompat := 0, featuresLogIncompat := 0, spinoAlign := 0, pquotino := 0, lsn := 0 }

theorem wholeTwoGroups_storable : wholeTwoGroups.Storable where
  numbers := by decide
  uuid := by decide
  metaUuid := by decide
  version := by decide
  legacy := by decide
  features2 := by decide
  incompat := by decide
  valid := by decide

theorem wholeTwoGroups_sectioned : (wholeTwoGroups.readBack id).toSuperblock.Sectioned := by
  obtain ⟨out, -, -, hparse⟩ := @parse_apply (fun _ => 0) id wholeTwoGroups
    (List.replicate 512 0) (fun _ => by decide) wholeTwoGroups_storable
    (by rw [List.length_replicate]; decide)
  refine (sectioned_iff _ _ out _ hparse).mpr ?_
  unfold Apportioned
  decide

/-- A third group past the end of the data section, and a log on the headers of the second. -/
def strayLog : WholeSuperblock :=
  { wholeTwoGroups with agcount := 3, logstart := 32 }

theorem strayLog_storable : strayLog.Storable where
  numbers := by decide
  uuid := by decide
  metaUuid := by decide
  version := by decide
  legacy := by decide
  features2 := by decide
  incompat := by decide
  valid := by decide

theorem strayLog_not_sectioned :
    (∃ out, WholeSuperblock.apply (fun _ => 0) (List.replicate 512 0) strayLog = .ok out ∧
      parse (fun _ => 0) id out = .ok (strayLog.readBack id)) ∧
      2 * strayLog.agblocks = strayLog.dblocks ∧
      strayLog.logByte 0 0 = strayLog.groupStart 1 ∧
      ¬(strayLog.readBack id).toSuperblock.Sectioned := by
  obtain ⟨out, happly, -, hparse⟩ := @parse_apply (fun _ => 0) id strayLog
    (List.replicate 512 0) (fun _ => by decide) strayLog_storable
    (by rw [List.length_replicate]; decide)
  refine ⟨⟨out, happly, hparse⟩, by decide, by decide, fun h => ?_⟩
  exact absurd (h.starts 2 (by decide)) (by decide)

end FsXfs.Superblock
