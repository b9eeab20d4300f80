import FsXfs.File.Read
import FsXfs.Lib.Patch

/-!
# What a shrink in place leaves behind

`Filesystem::truncate` clears the rest of its new last block with `write_at`, and takes a refusal of
it for a block with nothing to clear. `write_at` also refuses a range that goes past the size, and the
rest of a block does where the file ended in that block.
-/

namespace FsXfs.File

open Bytes Redo

set_option autoImplicit false

/-! ## Writes to a device -/

def DataWrite.patch (w : DataWrite) : Patch ℕ UInt8 :=
  fun a => if w.1 ≤ a then w.2[a - w.1]? else none

def afterWrites (writes : List DataWrite) (disk : ℕ → UInt8) : ℕ → UInt8 :=
  applyAll (writes.map DataWrite.patch) disk

variable {a : ℕ} {writes : List DataWrite}

theorem DataWrite.patch_eq_none {w : DataWrite} (h : a < w.1 ∨ w.1 + w.2.length ≤ a) :
    w.patch a = none := by
  unfold patch
  split
  · exact List.getElem?_eq_none (by omega)
  · rfl

theorem afterWrites_outside {disk : ℕ → UInt8} (h : ∀ w ∈ writes, a < w.1 ∨ w.1 + w.2.length ≤ a) :
    afterWrites writes disk a = disk a := by
  refine applyAll_of_not_covers ?_
  rintro ⟨p, hp, hsome⟩
  obtain ⟨w, hw, rfl⟩ := List.mem_map.mp hp
  rw [DataWrite.patch_eq_none (h w hw)] at hsome
  cases hsome

theorem afterWrites_append (writes more : List DataWrite) (disk : ℕ → UInt8) :
    afterWrites (writes ++ more) disk = afterWrites more (afterWrites writes disk) := by
  unfold afterWrites
  rw [List.map_append, applyAll_append]

theorem afterWrites_zeros {at_ n : ℕ} {disk : ℕ → UInt8} (hge : at_ ≤ a) (hlt : a < at_ + n) :
    afterWrites [(at_, List.replicate n 0)] disk a = 0 := by
  refine apply_of_some ?_
  rw [DataWrite.patch, if_pos hge, List.getElem?_replicate, if_pos (by omega)]

namespace Volume

section

variable {v : Volume} {ino newSize : ℕ} {copy current : Inode} {extents : List Extent} {phys : ℕ}

def blockEnd (v : Volume) (newSize : ℕ) : ℕ :=
  newSize + (v.sb.blocksize - newSize % v.sb.blocksize)

theorem planChunks_one (hsorted : Sorted extents) {len : ℕ} (hlen : 0 < len)
    (hfit : newSize % v.sb.blocksize + len ≤ v.sb.blocksize)
    (h : MapsTo extents (newSize / v.sb.blocksize) phys false) :
    planChunks v ino extents newSize len len 0 =
      .ok [⟨wrap64 (v.sb.fsblockOffset phys + newSize % v.sb.blocksize), len⟩] := by
  obtain ⟨e, he, hc, rfl, hu⟩ := h
  have hlook := (lookup_eq_some_iff hsorted).mpr ⟨he, hc⟩
  have hmap : e.map (newSize / v.sb.blocksize) =
      some (e.startblock + (newSize / v.sb.blocksize - e.startoff)) := by
    unfold Extent.map
    rw [hc]
    rfl
  obtain ⟨fuel, rfl⟩ : ∃ fuel, len = fuel + 1 := ⟨len - 1, by omega⟩
  have hchunk : min (v.sb.blocksize - newSize % v.sb.blocksize) (fuel + 1 - 0) = fuel + 1 := by omega
  have hrest : planChunks v ino extents newSize (fuel + 1) fuel (0 + (fuel + 1)) = .ok [] := by
    cases fuel with
    | zero => rfl
    | succ fuel =>
      rw [planChunks, if_neg (by omega)]
  rw [planChunks, if_pos (by omega)]
  simp only [Nat.add_zero, hchunk]
  refine bind_eq_ok.mpr ⟨e, orElse_eq_ok.mpr hlook, bind_eq_ok.mpr ⟨(), ensure_of hu.symm, ?_⟩⟩
  exact bind_eq_ok.mpr ⟨_, orElse_eq_ok.mpr hmap, bind_eq_ok.mpr ⟨[], hrest, rfl⟩⟩

/-- What `truncate` has checked of a file by the time it clears its tail. -/
structure Clearable (v : Volume) (ino : ℕ) (copy current : Inode) (extents : List Extent) : Prop where
  writable : v.writable = .ok ()
  clean : v.refuseAfterCheckpoint = .ok ()
  regular : copy.regular = true
  shape : ∀ shared local_, inPlaceShape ino copy shared local_ = .ok ()
  size : copy.size < 2 ^ 64
  inode : v.inode ino = .ok current
  mapped : v.dataExtents ino current = .ok extents
  sorted : Sorted extents

section

variable (hfile : Clearable v ino copy current extents)
  (hmaps : MapsTo extents (newSize / v.sb.blocksize) phys false)

include hfile

theorem writeAt_tail_refused
    (h : ¬(v.blockEnd newSize ≤ copy.size ∧ v.blockEnd newSize ≤ current.size)) :
    ∃ why, v.writeAt ino copy newSize
      (List.replicate (v.sb.blocksize - newSize % v.sb.blocksize) 0) = .error (.unsupportedFeature why) := by
  have hbs := v.accepted.geometry.blocksize_ge
  have hmod := Nat.mod_lt newSize (show 0 < v.sb.blocksize by omega)
  have hsome : List.replicate (v.sb.blocksize - newSize % v.sb.blocksize) (0 : UInt8) ≠ [] := by
    rw [Ne, List.replicate_eq_nil_iff]
    omega
  have hrefused : ∀ {p : Prop} [Decidable p] {why : String} {α : Type} {f : Unit → Except Error α},
      ¬p → (ensure p (.unsupportedFeature why) >>= f) = .error (.unsupportedFeature why) := by
    intro p _ why α f hp
    rw [ensure, if_neg hp]
    rfl
  unfold writeAt
  rw [hfile.writable, if_neg hsome]
  simp only [List.length_replicate]
  rw [hfile.clean, ensure_of hfile.regular, hfile.shape]
  change ∃ why, (ensure (v.blockEnd newSize < 2 ^ 64) _ >>= fun _ => _) = _
  by_cases hwide : v.blockEnd newSize < 2 ^ 64
  · rw [ensure_of hwide]
    change ∃ why, (ensure (v.blockEnd newSize ≤ copy.size) _ >>= fun _ => _) = _
    by_cases hcopy : v.blockEnd newSize ≤ copy.size
    · rw [ensure_of hcopy, hfile.inode]
      exact ⟨_, hrefused fun hcurrent => h ⟨hcopy, hcurrent⟩⟩
    · exact ⟨_, hrefused hcopy⟩
  · exact ⟨_, hrefused hwide⟩

include hmaps

theorem writeAt_tail
    (h : v.blockEnd newSize ≤ copy.size ∧ v.blockEnd newSize ≤ current.size) :
    v.writeAt ino copy newSize (List.replicate (v.sb.blocksize - newSize % v.sb.blocksize) 0) =
      .ok [(wrap64 (v.sb.fsblockOffset phys + newSize % v.sb.blocksize),
        List.replicate (v.sb.blocksize - newSize % v.sb.blocksize) 0)] := by
  have hbs := v.accepted.geometry.blocksize_ge
  have hmod := Nat.mod_lt newSize (show 0 < v.sb.blocksize by omega)
  have hsize := hfile.size
  have hsome : List.replicate (v.sb.blocksize - newSize % v.sb.blocksize) (0 : UInt8) ≠ [] := by
    rw [Ne, List.replicate_eq_nil_iff]
    omega
  have hplan : v.planInPlaceWrite ino current newSize (v.sb.blocksize - newSize % v.sb.blocksize) =
      .ok [⟨wrap64 (v.sb.fsblockOffset phys + newSize % v.sb.blocksize),
        v.sb.blocksize - newSize % v.sb.blocksize⟩] :=
    bind_eq_ok.mpr ⟨extents, hfile.mapped, planChunks_one hfile.sorted (by omega) (by omega) hmaps⟩
  have hend : v.blockEnd newSize = newSize + (v.sb.blocksize - newSize % v.sb.blocksize) := rfl
  refine bind_eq_ok.mpr ⟨(), hfile.writable, ?_⟩
  rw [if_neg hsome]
  simp only [List.length_replicate]
  refine bind_eq_ok.mpr ⟨(), hfile.clean, bind_eq_ok.mpr ⟨(), ensure_of hfile.regular, ?_⟩⟩
  refine bind_eq_ok.mpr ⟨(), hfile.shape _ _, bind_eq_ok.mpr ⟨(), ensure_of (by omega), ?_⟩⟩
  refine bind_eq_ok.mpr ⟨(), ensure_of (by omega), bind_eq_ok.mpr ⟨current, hfile.inode, ?_⟩⟩
  refine bind_eq_ok.mpr ⟨(), ensure_of (by omega), bind_eq_ok.mpr ⟨_, hplan, ?_⟩⟩
  simp only [placeChunks, slice, List.drop_zero]
  rw [List.take_of_length_le (by simp)]
  rfl

end

section

variable (hsize : copy.size < 2 ^ 64) (hcurrent : v.inode ino = .ok current)
  (hextents : v.dataExtents ino current = .ok extents)

include hsize hcurrent hextents

theorem truncate_cases {record : Option ℕ} (hsorted : Sorted extents)
    (hsmaller : newSize < current.size) (h : v.truncate ino copy newSize = .ok (writes, record)) :
    (newSize = copy.size ∧ writes = [] ∧ record = none) ∨
      (Clearable v ino copy current extents ∧ v.clearTail ino copy newSize = .ok writes) := by
  obtain ⟨_, hwritable, h⟩ := bind_eq_ok.mp h
  obtain ⟨_, hregular, h⟩ := bind_eq_ok.mp h
  obtain ⟨_, -, h⟩ := bind_eq_ok.mp h
  obtain ⟨_, hshape, h⟩ := bind_eq_ok.mp h
  obtain ⟨_, -, h⟩ := bind_eq_ok.mp h
  split at h
  next hsame =>
    cases h
    exact .inl ⟨hsame, rfl, rfl⟩
  next =>
    obtain ⟨current', hcurrent', h⟩ := bind_eq_ok.mp h
    obtain rfl := Except.ok.inj (hcurrent.symm.trans hcurrent')
    obtain ⟨_, -, h⟩ := bind_eq_ok.mp h
    rw [if_neg (by omega)] at h
    obtain ⟨zeros, hzeros, h⟩ := bind_eq_ok.mp h
    obtain ⟨_, hclean, h⟩ := bind_eq_ok.mp h
    obtain ⟨offset, -, h⟩ := bind_eq_ok.mp h
    obtain ⟨rfl, -⟩ := Prod.mk.inj (Except.ok.inj h)
    refine .inr ⟨⟨hwritable, hclean, ensure_eq_ok.mp hregular, fun shared local_ => ?_, hsize, hcurrent,
      hextents, hsorted⟩, hzeros⟩
    simp only [inPlaceShape, bind_eq_ok, ensure_eq_ok, exists_const] at hshape ⊢
    exact hshape

/-- The zeros are written where the rest of the block is inside the file, in the caller's copy and in
the inode. -/
theorem truncate_writes {record : Option ℕ} (hsorted : Sorted extents)
    (hmaps : MapsTo extents (newSize / v.sb.blocksize) phys false)
    (htail : newSize % v.sb.blocksize ≠ 0) (hsmaller : newSize < current.size)
    (h : v.truncate ino copy newSize = .ok (writes, record)) :
    writes = if v.blockEnd newSize ≤ copy.size ∧ v.blockEnd newSize ≤ current.size then
      [(wrap64 (v.sb.fsblockOffset phys + newSize % v.sb.blocksize),
        List.replicate (v.sb.blocksize - newSize % v.sb.blocksize) 0)] else [] := by
  have hbs := v.accepted.geometry.blocksize_ge
  have hmod := Nat.mod_lt newSize (show 0 < v.sb.blocksize by omega)
  rcases truncate_cases hsize hcurrent hextents hsorted hsmaller h with
    ⟨hsame, rfl, -⟩ | ⟨hfile, hzeros⟩
  · rw [if_neg]
    unfold blockEnd
    omega
  · unfold clearTail at hzeros
    simp only [if_neg htail] at hzeros
    obtain ⟨_, hinode, hzeros⟩ := bind_eq_ok.mp hzeros
    by_cases hin : v.blockEnd newSize ≤ copy.size ∧ v.blockEnd newSize ≤ current.size
    · rw [writeAt_tail hfile hmaps hin] at hzeros
      rw [if_pos hin]
      exact (Except.ok.inj hzeros).symm
    · obtain ⟨why, hwhy⟩ := writeAt_tail_refused hfile hin
      rw [hwhy] at hzeros
      rw [if_neg hin]
      exact (Except.ok.inj hzeros).symm

end

/-- After a shrink that returned, the rest of the last block is zero on the device exactly where it
was inside the file, or zero already. -/
theorem truncate_clears_iff {writes : List DataWrite} {record : Option ℕ} {raw : List UInt8}
    (disk : ℕ → UInt8) (hsize : copy.size < 2 ^ 64) (hcurrent : v.inode ino = .ok current)
    (hextents : v.dataExtents ino current = .ok extents) (hsorted : Sorted extents)
    (hmaps : MapsTo extents (newSize / v.sb.blocksize) phys false)
    (hreach : blockStart v.sb phys < 2 ^ 64) (hsmaller : newSize < current.size)
    (h : v.truncate ino copy newSize = .ok (writes, record))
    (hrecord : ∀ offset ∈ record, offset + raw.length ≤ blockStart v.sb phys ∨
      blockStart v.sb phys + v.sb.blocksize ≤ offset) :
    (∀ p, newSize ≤ p → p < v.blockEnd newSize → newSize % v.sb.blocksize ≠ 0 →
      afterWrites (writes ++ (record.map fun offset => (offset, raw)).toList) disk
        (blockStart v.sb phys + p % v.sb.blocksize) = 0) ↔
      newSize % v.sb.blocksize = 0 ∨
        (v.blockEnd newSize ≤ copy.size ∧ v.blockEnd newSize ≤ current.size) ∨
        ∀ p, newSize ≤ p → p < v.blockEnd newSize →
          disk (blockStart v.sb phys + p % v.sb.blocksize) = 0 := by
  have hbs := v.accepted.geometry.blocksize_ge
  have hmod := Nat.mod_lt newSize (show 0 < v.sb.blocksize by omega)
  by_cases htail : newSize % v.sb.blocksize = 0
  · exact iff_of_true (fun p _ _ hne => absurd htail hne) (.inl htail)
  obtain ⟨e, he, hholds⟩ := holds_of_mapsTo hmaps
  have haddress := (fsblockOffset_eq_saturate v.accepted ((dataExtents_spec hextents).2.2 e he)
    hholds).1
  have hend : blockStart v.sb phys + v.sb.blocksize ≤ 2 ^ 64 :=
    block_end_le_of_dvd v.accepted (Nat.dvd_mul_left _ _) hreach
  have hat : wrap64 (v.sb.fsblockOffset phys + newSize % v.sb.blocksize) =
      blockStart v.sb phys + newSize % v.sb.blocksize := by
    rw [haddress, saturate64_of_lt hreach]
    exact Nat.mod_eq_of_lt (by omega)
  have hwrites := truncate_writes hsize hcurrent hextents hsorted hmaps htail hsmaller h
  have hrest : ∀ p, newSize ≤ p → p < v.blockEnd newSize →
      newSize % v.sb.blocksize ≤ p % v.sb.blocksize ∧ p % v.sb.blocksize < v.sb.blocksize := by
    intro p hge hlt
    refine ⟨?_, Nat.mod_lt p (by omega)⟩
    unfold blockEnd at hlt
    obtain ⟨k, rfl⟩ := Nat.exists_eq_add_of_le hge
    rw [Nat.add_mod, Nat.mod_eq_of_lt (show k < v.sb.blocksize by omega),
      Nat.mod_eq_of_lt (show newSize % v.sb.blocksize + k < v.sb.blocksize by omega)]
    exact Nat.le_add_right _ _
  have hkept : ∀ p, newSize ≤ p → p < v.blockEnd newSize →
      afterWrites (writes ++ (record.map fun offset => (offset, raw)).toList) disk
        (blockStart v.sb phys + p % v.sb.blocksize) =
      afterWrites writes disk (blockStart v.sb phys + p % v.sb.blocksize) := by
    intro p hge hlt
    rw [afterWrites_append]
    refine afterWrites_outside fun w hw => ?_
    obtain ⟨offset, hoffset, rfl⟩ := Option.map_eq_some_iff.mp (Option.mem_toList.mp hw)
    have hapart := hrecord offset hoffset
    have hin := hrest p hge hlt
    change _ < offset ∨ offset + raw.length ≤ _
    omega
  by_cases hinside : v.blockEnd newSize ≤ copy.size ∧ v.blockEnd newSize ≤ current.size
  · refine iff_of_true (fun p hge hlt _ => ?_) (.inr (.inl hinside))
    have hin := hrest p hge hlt
    rw [hkept p hge hlt, hwrites, if_pos hinside]
    exact afterWrites_zeros (by omega) (by omega)
  · rw [if_neg hinside] at hwrites
    have hsame : ∀ p, newSize ≤ p → p < v.blockEnd newSize →
        afterWrites (writes ++ (record.map fun offset => (offset, raw)).toList) disk
          (blockStart v.sb phys + p % v.sb.blocksize) =
        disk (blockStart v.sb phys + p % v.sb.blocksize) := by
      intro p hge hlt
      rw [hkept p hge hlt, hwrites]
      rfl
    constructor
    · intro hall
      refine .inr (.inr fun p hge hlt => ?_)
      rw [← hsame p hge hlt]
      exact hall p hge hlt htail
    · rintro (hzero | hin | hall) p hge hlt -
      · exact absurd hzero htail
      · exact absurd hin hinside
      · rw [hsame p hge hlt]
        exact hall p hge hlt

end

/-! ## Two files -/

def spilledFile : Inode :=
  listedFile 2000 [⟨0, 20, 2, false⟩] (by decide)

def spilledVolume : Volume :=
  oneFile twoGroups twoGroups_accepted zeroDevice spilledFile noNode

theorem truncate_clears_spilled :
    spilledVolume.truncate 100 spilledFile 1020 = .ok ([(21500, [0, 0, 0, 0])], some 43008) ∧
      ∀ p, 1020 ≤ p → p < spilledVolume.blockEnd 1020 →
        afterWrites [(21500, [0, 0, 0, 0]), (43008, List.replicate 512 1)] (fun _ => 7)
          (blockStart twoGroups 20 + p % 1024) = 0 := by
  have hextents : spilledVolume.dataExtents 100 spilledFile = .ok [⟨0, 20, 2, false⟩] := by
    decide +kernel
  have hcut : spilledVolume.truncate 100 spilledFile 1020 =
      .ok ([(21500, [0, 0, 0, 0])], some 43008) := by decide +kernel
  have hmaps : MapsTo [⟨0, 20, 2, false⟩] (1020 / spilledVolume.sb.blocksize) 20 false :=
    ⟨_, List.mem_singleton_self _, by decide +kernel, by decide +kernel, rfl⟩
  have hapart : ∀ offset ∈ some 43008, offset + (List.replicate 512 (1 : UInt8)).length ≤
      blockStart spilledVolume.sb 20 ∨
        blockStart spilledVolume.sb 20 + spilledVolume.sb.blocksize ≤ offset := by
    rintro offset hoffset
    obtain rfl := Option.mem_some_iff.mp hoffset
    exact .inr (by decide +kernel)
  have hclears := (truncate_clears_iff (fun _ => 7) (by decide +kernel) rfl hextents
    (by decide) hmaps (by decide +kernel) (by decide +kernel) hcut hapart).mpr
      (.inr (.inl (by decide +kernel)))
  exact ⟨hcut, fun p hge hlt => hclears p hge hlt (by decide +kernel)⟩

def endedFile : Inode :=
  listedFile 1000 [⟨0, 20, 1, false⟩] (by decide)

def endedVolume : Volume :=
  oneFile twoGroups twoGroups_accepted zeroDevice endedFile noNode

/-- A file that ended in the block it is cut in: nothing is cleared, and a later growth reads it. -/
theorem truncate_leaves_ended :
    endedVolume.dataExtents 100 endedFile = .ok [⟨0, 20, 1, false⟩] ∧
      endedVolume.truncate 100 endedFile 100 = .ok ([], some 43008) ∧
      afterWrites [(43008, List.replicate 512 1)] (fun _ => 7) (blockStart twoGroups 20 + 100) = 7 := by
  decide +kernel

end Volume

end FsXfs.File
