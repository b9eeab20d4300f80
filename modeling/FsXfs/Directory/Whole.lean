import FsXfs.Directory.Listing
import FsXfs.File.Mapping

/-!
# Directory blocks in one piece

Where an extent of a directory starts on a directory block, each block in it lies in one run of the
device, and the walks over extents read what the map says.
-/

namespace FsXfs.Directory

open Bytes Quota Names File

set_option autoImplicit false

/-! ## Runs of the device -/

def run (device : Device) (offset len : ℕ) : List UInt8 :=
  (List.range len).map fun i => device.byte (offset + i)

theorem run_length (device : Device) (offset len : ℕ) : (run device offset len).length = len := by
  rw [run, List.length_map, List.length_range]

theorem readAt_eq_ok {device : Device} {offset len : ℕ} {bytes : List UInt8} :
    device.readAt offset len = .ok bytes ↔ offset + len ≤ device.size ∧ bytes = run device offset len := by
  unfold Device.readAt
  split
  · next h => simp [h, run, eq_comm]
  · next h => simp [h]

theorem getElem?_run (device : Device) (offset len k : ℕ) :
    (run device offset len)[k]? = if k < len then some (device.byte (offset + k)) else none := by
  rw [run, List.getElem?_map]
  by_cases hk : k < len
  · rw [List.getElem?_range hk, if_pos hk, Option.map_some]
  · rw [List.getElem?_eq_none (by rw [List.length_range]; omega), if_neg hk, Option.map_none]

theorem run_pieces (device : Device) (offset : ℕ) {width : ℕ} (hw : 0 < width) (n : ℕ) :
    run device offset (n * width) =
      (List.range n).flatMap fun j => run device (offset + j * width) width := by
  refine List.ext_getElem? fun k => ?_
  rw [getElem?_run, getElem?_flatMap_range hw fun j _ => run_length device _ _]
  by_cases hk : k < n * width
  · have hmod := Nat.mod_lt k hw
    have hsplit := Nat.div_add_mod' k width
    rw [if_pos hk, if_pos hk, getElem?_run, if_pos hmod, Nat.add_assoc, hsplit]
  · rw [if_neg hk, if_neg hk]

/-! ## A block through the map -/

section

variable {crc32c : List UInt8 → ℕ} {sb : Superblock} {device : Device} {ino : ℕ}
  {extents : List Extent}

def blockRun (sb : Superblock) (device : Device) (extents : List Extent) (fileBlock : ℕ) :
    List UInt8 :=
  run device (sb.fsblockOffset ((mapBlock extents fileBlock).getD 0)) sb.blocksize

/-- A written file block that is on the device. -/
def Held (sb : Superblock) (device : Device) (extents : List Extent) (fileBlock : ℕ) : Prop :=
  ∃ phys, mapBlock extents fileBlock = some phys ∧
    sb.fsblockOffset phys + sb.blocksize ≤ device.size

variable {fileBlock : ℕ} {out : List UInt8} {e : Extent}

theorem readPieces_eq_some {n : ℕ} :
    readPieces sb device extents fileBlock n = .ok (some out) ↔
      (∀ j < n, Held sb device extents (fileBlock + j)) ∧
        out = (List.range n).flatMap fun j => blockRun sb device extents (fileBlock + j) := by
  induction n generalizing fileBlock out with
  | zero => simp [readPieces, eq_comm]
  | succ n ih =>
    rw [List.range_succ_eq_map, List.flatMap_cons, List.flatMap_map]
    have hsucc : ∀ j, fileBlock + (j + 1) = fileBlock + 1 + j := fun j => by omega
    have hshift : (fun j => blockRun sb device extents (fileBlock + Nat.succ j)) =
        fun j => blockRun sb device extents (fileBlock + 1 + j) := funext fun j => by
      rw [Nat.succ_eq_add_one, hsucc]
    rw [hshift]
    unfold readPieces
    cases hmap : mapBlock extents fileBlock with
    | none =>
      simp only [reduceCtorEq, Except.ok.injEq, false_iff, not_and]
      intro hheld
      obtain ⟨phys, hphys, -⟩ := hheld 0 (Nat.succ_pos n)
      rw [Nat.add_zero, hmap] at hphys
      cases hphys
    | some phys =>
      have hrun : blockRun sb device extents (fileBlock + 0) =
          run device (sb.fsblockOffset phys) sb.blocksize := by
        rw [blockRun, Nat.add_zero, hmap, Option.getD_some]
      simp only [bind_eq_ok, pure, Except.pure, Except.ok.injEq, readAt_eq_ok, hrun]
      constructor
      · rintro ⟨piece, ⟨hin, rfl⟩, rest, hrest, hout⟩
        obtain ⟨more, rfl, rfl⟩ := Option.map_eq_some_iff.mp hout
        obtain ⟨hheld, rfl⟩ := ih.mp hrest
        refine ⟨fun j hj => ?_, rfl⟩
        cases j with
        | zero => exact ⟨phys, by rw [Nat.add_zero, hmap], hin⟩
        | succ j =>
          rw [hsucc]
          exact hheld j (by omega)
      · rintro ⟨hheld, rfl⟩
        obtain ⟨phys', hphys, hin⟩ := hheld 0 (Nat.succ_pos n)
        rw [Nat.add_zero, hmap] at hphys
        cases hphys
        refine ⟨_, ⟨hin, rfl⟩, some _, ih.mpr ⟨fun j hj => ?_, rfl⟩, rfl⟩
        rw [← hsucc]
        exact hheld (j + 1) (by omega)

theorem readDirBlock_eq_some {dirBlock : ℕ} :
    readDirBlock crc32c sb device ino extents dirBlock = .ok (some out) ↔
      readPieces sb device extents (dirBlock * perBlock sb) (perBlock sb) = .ok (some out) ∧
        verifiedAt crc32c sb ino (mapBlock extents (dirBlock * perBlock sb)) out = .ok () := by
  unfold readDirBlock
  simp only [bind_eq_ok]
  constructor
  · rintro ⟨got, hgot, h⟩
    cases got with
    | none => exact absurd h (by simp [pure, Except.pure])
    | some got =>
      simp only [bind_eq_ok, pure, Except.pure, Except.ok.injEq, Option.some.injEq] at h
      obtain ⟨_, hverify, rfl⟩ := h
      exact ⟨hgot, hverify⟩
  · rintro ⟨hgot, hverify⟩
    refine ⟨some out, hgot, ?_⟩
    simp only [hverify, bind, Except.bind]
    rfl

/-! ## Blocks that follow each other -/

section

variable (hsb : sb.Accepted)

include hsb

theorem perBlock_eq : perBlock sb = 2 ^ sb.dirblklog :=
  Nat.mul_div_cancel_left _ (Nat.lt_of_lt_of_le (by decide) hsb.geometry.blocksize_ge)

theorem perBlock_pos : 0 < perBlock sb := by
  rw [perBlock_eq hsb]
  positivity

theorem perBlock_mul : perBlock sb * sb.blocksize = sb.dirblocksize := by
  rw [perBlock_eq hsb, Superblock.dirblocksize, Nat.mul_comm]

theorem perBlock_dvd_limit : perBlock sb ∣ dataBlockLimit sb := by
  obtain ⟨hle, hpow⟩ := hsb.directories
  have hlog : sb.blocklog + sb.dirblklog ≤ 16 := by
    rw [hpow] at hle
    exact (Nat.pow_le_pow_iff_right (by decide)).mp (show 2 ^ _ ≤ 2 ^ 16 from hle)
  rw [perBlock_eq hsb, dataBlockLimit, hsb.geometry.blocksize_eq,
    Nat.pow_div (by omega) (by decide)]
  exact pow_dvd_pow 2 (by omega)

theorem fsblockOffset_add {i j : ℕ} (hbounds : sb.extentInBounds e.startblock e.blockcount = true)
    (hj : i + j < e.blockcount)
    (hi : sb.fsblockOffset (e.startblock + i) + sb.blocksize ≤ device.size)
    (hij : sb.fsblockOffset (e.startblock + (i + j)) + sb.blocksize ≤ device.size) :
    sb.fsblockOffset (e.startblock + (i + j)) =
      sb.fsblockOffset (e.startblock + i) + j * sb.blocksize := by
  have hgeo := hsb.geometry
  have hbs : 2 ≤ sb.blocksize := le_trans (by decide) hgeo.blocksize_ge
  have hsize := device.size_lt
  obtain ⟨-, hag, hsame⟩ := Superblock.extentInBounds_spec hbounds
  obtain ⟨hdi, -, -⟩ := hsame i (by omega)
  obtain ⟨hdij, -, -⟩ := hsame (i + j) hj
  rw [Superblock.fsblockOffset_eq hsb (hdij ▸ hag) (by omega),
    Superblock.fsblockOffset_eq hsb (hdi ▸ hag) (by omega),
    ← Nat.add_mul]
  congr 1
  have hmi := Nat.div_add_mod (e.startblock + i) (2 ^ sb.agblklog)
  have hmij := Nat.div_add_mod (e.startblock + (i + j)) (2 ^ sb.agblklog)
  rw [hdi] at hmi
  rw [hdij] at hmij
  rw [Superblock.linearBlock, Superblock.linearBlock, hdi, hdij]
  omega

end

theorem mapBlock_of_mem (hsorted : Sorted extents) (he : e ∈ extents)
    (hwritten : e.unwritten = false) (hlo : e.startoff ≤ fileBlock) (hhi : fileBlock < e.endOffset) :
    mapBlock extents fileBlock = some (e.startblock + (fileBlock - e.startoff)) := by
  have hc : e.contains fileBlock = true := Extent.contains_iff.mpr ⟨hlo, hhi⟩
  rw [mapBlock, (lookup_eq_some_iff hsorted).mpr ⟨he, hc⟩]
  simp only [hwritten, Bool.false_eq_true, if_false, Extent.map, hc, if_true]

theorem mapBlock_eq_some (hsorted : Sorted extents) {phys : ℕ} :
    mapBlock extents fileBlock = some phys ↔
      ∃ e ∈ extents, e.unwritten = false ∧ e.startoff ≤ fileBlock ∧ fileBlock < e.endOffset ∧
        phys = e.startblock + (fileBlock - e.startoff) := by
  constructor
  · intro h
    unfold mapBlock at h
    split at h
    · cases h
    · next e hlook =>
      obtain ⟨he, hc⟩ := lookup_mem hlook
      split at h
      · cases h
      · next hw =>
        obtain ⟨-, rfl⟩ := Extent.map_eq_some.mp h
        obtain ⟨hlo, hhi⟩ := Extent.contains_iff.mp hc
        exact ⟨e, he, Bool.not_eq_true _ ▸ hw, hlo, hhi, rfl⟩
  · rintro ⟨e, he, hw, hlo, hhi, rfl⟩
    exact mapBlock_of_mem hsorted he hw hlo hhi

theorem readAt_of_whole (hsb : sb.Accepted) (hsorted : Sorted extents) (he : e ∈ extents)
    (hwritten : e.unwritten = false) (hbounds : sb.extentInBounds e.startblock e.blockcount = true)
    (hlo : e.startoff ≤ fileBlock) (hhi : fileBlock + perBlock sb ≤ e.endOffset)
    (hread : readPieces sb device extents fileBlock (perBlock sb) = .ok (some out)) :
    device.readAt (sb.fsblockOffset (e.startblock + (fileBlock - e.startoff))) sb.dirblocksize =
      .ok out := by
  have hpos := perBlock_pos hsb
  have hbs : 0 < sb.blocksize := Nat.lt_of_lt_of_le (by decide) hsb.geometry.blocksize_ge
  have hcount : e.endOffset = e.startoff + e.blockcount := rfl
  obtain ⟨hheld, rfl⟩ := readPieces_eq_some.mp hread
  have hpiece : ∀ j < perBlock sb,
      mapBlock extents (fileBlock + j) = some (e.startblock + (fileBlock - e.startoff + j)) ∧
        sb.fsblockOffset (e.startblock + (fileBlock - e.startoff + j)) + sb.blocksize ≤
          device.size := by
    intro j hj
    have hmap := mapBlock_of_mem hsorted he hwritten (show e.startoff ≤ fileBlock + j by omega)
      (show fileBlock + j < e.endOffset by omega)
    rw [show fileBlock + j - e.startoff = fileBlock - e.startoff + j by omega] at hmap
    obtain ⟨phys, hphys, hin⟩ := hheld j hj
    rw [hmap] at hphys
    exact ⟨hmap, Option.some.inj hphys ▸ hin⟩
  have hstart := (hpiece 0 hpos).2
  have haddr : ∀ j < perBlock sb,
      sb.fsblockOffset (e.startblock + (fileBlock - e.startoff + j)) =
        sb.fsblockOffset (e.startblock + (fileBlock - e.startoff)) + j * sb.blocksize :=
    fun j hj => fsblockOffset_add hsb hbounds (by omega) hstart (hpiece j hj).2
  rw [readAt_eq_ok, ← perBlock_mul hsb, run_pieces device _ hbs]
  refine ⟨?_, List.flatMap_congr fun j hj => ?_⟩
  · have hlast := (hpiece (perBlock sb - 1) (by omega)).2
    rw [haddr _ (by omega), Nat.add_assoc, ← Nat.succ_mul, Nat.succ_eq_add_one,
      Nat.sub_add_cancel hpos] at hlast
    exact hlast
  · have hj := List.mem_range.mp hj
    rw [blockRun, (hpiece j hj).1, Option.getD_some, haddr j hj]

end

end FsXfs.Directory
