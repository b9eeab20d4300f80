import FsXfs.File.InPlace
import FsXfs.File.WriteAlloc
import FsXfs.File.TruncateTo
import FsXfs.File.Exchange
import FsXfs.Directory.Listing

/-!
# Where the data paths write

Every data path maps file blocks to byte addresses through the file's extents. What it writes before
its record, or with no record at all, is `dataWrites`.
-/

namespace FsXfs.File

open Bytes FsXfs.Group

set_option autoImplicit false

/-! ## The writes of each path -/

inductive Call where
  | write (ino offset : ℕ) (data : List UInt8)
  | writeAt (ino : ℕ) (copy : Inode) (offset : ℕ) (data : List UInt8)
  | truncate (ino : ℕ) (copy : Inode) (newSize : ℕ)
  | truncateTo (ino newSize : ℕ)
  | exchangeRange (a aOffset b bOffset length : ℕ)

def Call.ino : Call → ℕ
  | .write ino _ _ => ino
  | .writeAt ino _ _ _ => ino
  | .truncate ino _ _ => ino
  | .truncateTo ino _ => ino
  | .exchangeRange a _ _ _ _ => a

namespace Volume

def dataWrites (v : Volume) : Call → List DataWrite
  | .write ino offset data => (v.write ino offset data).toOption.elim [] Written.writes
  | .writeAt ino copy offset data => (v.writeAt ino copy offset data).toOption.getD []
  | .truncate ino copy newSize => (v.truncate ino copy newSize).toOption.elim [] Prod.fst
  | .truncateTo ino newSize =>
    (v.truncateTo ino newSize).toOption.join.elim [] Truncated.writes
  | .exchangeRange _ _ _ _ _ => []

def takenBy (v : Volume) : Call → List Extent
  | .write ino offset data => (v.write ino offset data).toOption.elim [] Written.taken
  | _ => []

/-- The byte lies past the headers of its group, in a block of an extent the bounds check passed or
in one the allocator took for the call. -/
def Lands (v : Volume) (c : Call) (address : ℕ) : Prop :=
  ∃ agno agbno, agno < v.sb.agcount ∧ lastHeaderBlock v.sb < agbno ∧ agbno < v.sb.agblocks ∧
    InBlock v.sb address agno agbno ∧
    ((∃ file extents e, v.inode c.ino = .ok file ∧ v.dataExtents c.ino file = .ok extents ∧
        e ∈ extents ∧ v.sb.extentInBounds e.startblock e.blockcount = true ∧
        e.Holds (packBlock v.sb agno agbno)) ∨
      ∃ e ∈ v.takenBy c, e.Holds (packBlock v.sb agno agbno) ∧ v.FreeAt agno agbno)

section

variable {v : Volume} {c : Call} {file : Inode} {extents : List Extent} {e : Extent}
  {phys within len i : ℕ}

theorem lands_of_extent (hfit : Addressable v.sb) (hinode : v.inode c.ino = .ok file)
    (hdata : v.dataExtents c.ino file = .ok extents) (he : e ∈ extents) (hphys : e.Holds phys)
    (hlen : within + len ≤ v.sb.blocksize) (hi : i < len) :
    v.Lands c (wrap64 (v.sb.fsblockOffset phys + within) + i) := by
  have hbounds := (dataExtents_spec hdata).2.2 e he
  obtain ⟨agno, agbno, rfl, hag, hlo, hhi⟩ := holds_packBlock hbounds hphys
  exact ⟨agno, agbno, hag, hlo, hhi, inBlock_of_offset v.accepted hfit hag hhi hlen hi,
    .inl ⟨file, extents, e, hinode, hdata, he, hbounds, hphys⟩⟩

theorem lands_of_fresh (hfit : Addressable v.sb) {agno agblock : ℕ} (hfresh : Fresh v agno agblock e)
    (he : e ∈ v.takenBy c) (hphys : e.Holds phys) (hlen : within + len ≤ v.sb.blocksize)
    (hi : i < len) : v.Lands c (wrap64 (v.sb.fsblockOffset phys + within) + i) := by
  obtain ⟨b, hge, hlt, rfl⟩ := hfresh.holds_iff.mp hphys
  have hfree := hfresh.free b hge hlt
  obtain ⟨hlo, hhi⟩ := hfree.bounds
  exact ⟨agno, b, hfresh.agno_lt, hlo, hhi,
    inBlock_of_offset v.accepted hfit hfresh.agno_lt hhi hlen hi, .inr ⟨e, he, hphys, hfree⟩⟩

theorem holds_of_map {fileBlock : ℕ} (h : e.map fileBlock = some phys) : e.Holds phys := by
  obtain ⟨hc, rfl⟩ := Extent.map_eq_some.mp h
  have := Extent.contains_iff.mp hc
  exact ⟨by omega, by omega⟩

theorem holds_of_contains {fileBlock : ℕ} (h : e.contains fileBlock = true) :
    e.Holds (e.startblock + (fileBlock - e.startoff)) :=
  holds_of_map (Extent.map_eq_some.mpr ⟨h, rfl⟩)

end

/-! ## Each path -/

section

variable {v : Volume} (hfit : Addressable v.sb) {ino : ℕ}

include hfit

variable {w : DataWrite} {data : List UInt8} {i : ℕ}

theorem writeAt_lands {c : Call} (hino : c.ino = ino) {copy : Inode} {offset : ℕ}
    {writes : List DataWrite} (h : v.writeAt ino copy offset data = .ok writes) (hw : w ∈ writes)
    (hi : i < w.2.length) : v.Lands c (w.1 + i) := by
  subst hino
  obtain ⟨_, -, h⟩ := bind_eq_ok.mp h
  split at h
  · cases h
    cases hw
  · obtain ⟨_, -, h⟩ := bind_eq_ok.mp h
    obtain ⟨_, -, h⟩ := bind_eq_ok.mp h
    obtain ⟨_, -, h⟩ := bind_eq_ok.mp h
    obtain ⟨_, -, h⟩ := bind_eq_ok.mp h
    obtain ⟨_, -, h⟩ := bind_eq_ok.mp h
    obtain ⟨current, hcurrent, h⟩ := bind_eq_ok.mp h
    obtain ⟨_, -, h⟩ := bind_eq_ok.mp h
    obtain ⟨chunks, hplan, h⟩ := bind_eq_ok.mp h
    cases h
    obtain ⟨extents, hextents, hchunks⟩ := bind_eq_ok.mp hplan
    obtain ⟨chunk, hchunk, hat, hlen⟩ := mem_placeChunks hw
    obtain ⟨e, he, fileBlock, phys, within, -, hmap, hstart, hfits⟩ :=
      planChunks_spec hchunks chunk hchunk
    rw [hat, hstart]
    exact lands_of_extent hfit hcurrent hextents he (holds_of_map hmap) hfits (by omega)

theorem truncate_lands {copy : Inode} {newSize : ℕ} {out : List DataWrite × Option ℕ}
    (h : v.truncate ino copy newSize = .ok out) (hw : w ∈ out.1)
    (hi : i < w.2.length) : v.Lands (.truncate ino copy newSize) (w.1 + i) := by
  obtain ⟨_, -, h⟩ := bind_eq_ok.mp h
  obtain ⟨_, -, h⟩ := bind_eq_ok.mp h
  obtain ⟨_, -, h⟩ := bind_eq_ok.mp h
  obtain ⟨_, -, h⟩ := bind_eq_ok.mp h
  obtain ⟨_, -, h⟩ := bind_eq_ok.mp h
  split at h
  · cases h
    cases hw
  obtain ⟨current, -, h⟩ := bind_eq_ok.mp h
  obtain ⟨_, -, h⟩ := bind_eq_ok.mp h
  split at h
  · cases h
    cases hw
  obtain ⟨zeros, hzeros, h⟩ := bind_eq_ok.mp h
  obtain ⟨_, -, h⟩ := bind_eq_ok.mp h
  obtain ⟨offset, -, h⟩ := bind_eq_ok.mp h
  cases h
  unfold clearTail at hzeros
  dsimp only at hzeros
  split at hzeros
  · cases hzeros
    cases hw
  obtain ⟨_, -, hzeros⟩ := bind_eq_ok.mp hzeros
  split at hzeros
  next writes hwrite =>
    cases hzeros
    exact writeAt_lands hfit (c := .truncate ino copy newSize) rfl hwrite hw hi
  next =>
    cases hzeros
    cases hw
  next => cases hzeros

theorem truncateTo_lands {newSize : ℕ} {out : Truncated}
    (hlist : ∀ file, v.inode ino = .ok file → file.format ≠ .btree)
    (h : v.truncateTo ino newSize = .ok (some out)) (hw : w ∈ out.writes)
    (hi : i < w.2.length) : v.Lands (.truncateTo ino newSize) (w.1 + i) := by
  obtain ⟨_, -, h⟩ := bind_eq_ok.mp h
  obtain ⟨_, -, h⟩ := bind_eq_ok.mp h
  obtain ⟨file, hinode, h⟩ := bind_eq_ok.mp h
  obtain ⟨_, -, h⟩ := bind_eq_ok.mp h
  obtain ⟨_, -, h⟩ := bind_eq_ok.mp h
  obtain ⟨_, -, h⟩ := bind_eq_ok.mp h
  split at h
  · cases Except.ok.inj h
  obtain ⟨⟨extents, mapBlocks⟩, hextents, h⟩ := bind_eq_ok.mp h
  obtain ⟨_, -, h⟩ := bind_eq_ok.mp h
  obtain ⟨_, -, h⟩ := bind_eq_ok.mp h
  obtain ⟨_, -, h⟩ := bind_eq_ok.mp h
  obtain ⟨_, -, h⟩ := bind_eq_ok.mp h
  obtain ⟨_, -, h⟩ := bind_eq_ok.mp h
  obtain ⟨_, -, h⟩ := bind_eq_ok.mp h
  obtain ⟨_, -, h⟩ := bind_eq_ok.mp h
  obtain ⟨_, -, h⟩ := bind_eq_ok.mp h
  obtain rfl := Option.some.inj (Except.ok.inj h)
  rw [truncateExtents, if_neg (hlist file hinode)] at hextents
  obtain ⟨listed, hlisted, hpair⟩ := bind_eq_ok.mp hextents
  obtain ⟨rfl, -⟩ := Prod.mk.inj (Except.ok.inj hpair)
  obtain ⟨⟨phys, within⟩, htail, rfl⟩ := List.mem_map.mp hw
  rw [Option.mem_toList, tailOf] at htail
  split at htail
  next =>
    obtain ⟨e, hfind, heq⟩ := Option.map_eq_some_iff.mp htail
    obtain ⟨rfl, rfl⟩ := Prod.mk.inj heq
    have hfound := List.find?_some hfind
    rw [Bool.and_eq_true] at hfound
    have hlen : min newSize file.size % v.sb.blocksize + (List.replicate (v.sb.blocksize -
        min newSize file.size % v.sb.blocksize) (0 : UInt8)).length ≤ v.sb.blocksize := by
      have hbs := v.accepted.geometry.blocksize_ge
      have hmod := Nat.mod_lt (min newSize file.size) (show 0 < v.sb.blocksize by omega)
      rw [List.length_replicate]
      omega
    exact lands_of_extent hfit hinode hlisted (List.mem_of_find?_eq_some hfind)
      (holds_of_contains hfound.2) hlen hi
  next => cases htail

omit hfit

theorem mem_zeroTail {old : List Extent} {size offset : ℕ}
    (h : some w ∈ v.zeroTail old size offset) :
    ∃ e ∈ old, e.contains (size / v.sb.blocksize) = true ∧
      w.1 = wrap64 (v.sb.fsblockOffset (e.startblock + (size / v.sb.blocksize - e.startoff)) +
        size % v.sb.blocksize) ∧
      size % v.sb.blocksize + w.2.length ≤ v.sb.blocksize := by
  unfold zeroTail at h
  dsimp only at h
  split at h
  next hpast =>
    split at h
    next => cases h
    next e hfind =>
      have hfound := List.find?_some hfind
      rw [Bool.and_eq_true] at hfound
      rw [List.mem_singleton] at h
      split at h
      next hle =>
        cases h
        refine ⟨e, List.mem_of_find?_eq_some hfind, hfound.2, rfl, ?_⟩
        have hblock := Nat.div_add_mod size v.sb.blocksize
        have hwrap : wrap64 ((size / v.sb.blocksize + 1) * v.sb.blocksize) ≤
            (size / v.sb.blocksize + 1) * v.sb.blocksize := Nat.mod_le _ _
        have hend : (size / v.sb.blocksize + 1) * v.sb.blocksize =
            v.sb.blocksize * (size / v.sb.blocksize) + v.sb.blocksize := by ring
        rw [List.length_replicate]
        omega
      next => cases h
  next => cases h

theorem writeBlock_spec {offset fb : ℕ} {block : Block}
    (h : v.writeBlock offset data fb block = some w) :
    ∃ within, w.1 = wrap64 (v.sb.fsblockOffset block.phys + within) ∧
      within + w.2.length ≤ v.sb.blocksize := by
  unfold writeBlock at h
  dsimp only at h
  split at h
  next hle =>
    have hwrap : wrap64 (wrap64 (fb * v.sb.blocksize) + v.sb.blocksize) ≤
        wrap64 (fb * v.sb.blocksize) + v.sb.blocksize := Nat.mod_le _ _
    have hsrc : (slice data (max offset (wrap64 (fb * v.sb.blocksize)) - offset)
        (min (offset + data.length) (wrap64 (wrap64 (fb * v.sb.blocksize) + v.sb.blocksize)) -
          max offset (wrap64 (fb * v.sb.blocksize)))).length ≤
        min (offset + data.length) (wrap64 (wrap64 (fb * v.sb.blocksize) + v.sb.blocksize)) -
          max offset (wrap64 (fb * v.sb.blocksize)) := by
      simp [slice]
    cases block with
    | inPlace phys =>
      cases h
      refine ⟨_, rfl, ?_⟩
      dsimp only
      omega
    | whole phys =>
      cases h
      have hlt : v.sb.fsblockOffset phys < 2 ^ 64 := by
        simp only [Superblock.fsblockOffset, saturate64]
        omega
      refine ⟨0, (Nat.mod_eq_of_lt hlt).symm, ?_⟩
      rw [patch_length (by rw [List.length_replicate]; omega), List.length_replicate]
      omega
  next => cases h

include hfit

theorem write_lands {offset : ℕ} {out : Written}
    (h : v.write ino offset data = .ok out) (hw : w ∈ out.writes)
    (hi : i < w.2.length) : v.Lands (.write ino offset data) (w.1 + i) := by
  obtain ⟨file, filled, hspec⟩ := write_spec h
  have htaken : v.takenBy (.write ino offset data) = filled.taken := by
    simp [takenBy, h, Except.toOption, hspec.taken]
  obtain ⟨hdrawn, -⟩ := fillHoles_spec (drawn_nil v) hspec.filling
  rcases List.mem_append.mp (mem_upToPanic hspec.writes hw) with hmem | hmem
  · obtain ⟨e, he, hcontains, hat, hlen⟩ := mem_zeroTail hmem
    rw [hat]
    exact lands_of_extent hfit hspec.inode hspec.old he (holds_of_contains hcontains) hlen hi
  · obtain ⟨⟨fb, block⟩, hp, hblock⟩ := List.mem_map.mp hmem
    obtain ⟨within, hat, hlen⟩ := writeBlock_spec hblock
    rw [hat]
    rcases List.mem_append.mp ((List.mem_insertionSort byFileBlock).mp hp) with hp | hp
    · obtain ⟨e, he, hcontains, hof, -⟩ := mem_plan_mapped.mp hp
      have hphys : block.phys = e.startblock + (fb - e.startoff) := by
        rw [show block = blockOf e fb from hof, blockOf]
        split <;> rfl
      rw [hphys]
      exact lands_of_extent hfit hspec.inode hspec.old he (holds_of_contains hcontains) hlen hi
    · obtain ⟨e, he, hp⟩ := List.mem_flatMap.mp hp
      obtain ⟨j, hj, heq⟩ := List.mem_map.mp hp
      obtain ⟨rfl, rfl⟩ := Prod.mk.inj heq
      rw [List.mem_range] at hj
      obtain ⟨agno, agblock, -, hfresh⟩ := hdrawn.fresh e he
      have hholds : e.Holds (Block.whole (e.startblock + j)).phys := by
        simp only [Extent.Holds, Block.phys]
        omega
      exact lands_of_fresh hfit hfresh (htaken ▸ he) hholds hlen hi

end

/-- Each byte a data path writes before its record lands in a block past the headers of its group,
of an extent the bounds check passed or that the allocator took, on a volume whose blocks have
64-bit addresses. A truncate to any length is one of a file whose extents the inode lists. -/
theorem dataWrites_inBlock (v : Volume) (hfit : Addressable v.sb) (c : Call)
    (hlist : ∀ newSize, c = .truncateTo c.ino newSize →
      ∀ file, v.inode c.ino = .ok file → file.format ≠ .btree) :
    ∀ w ∈ v.dataWrites c, ∀ i < w.2.length, v.Lands c (w.1 + i) := by
  intro w hw i hi
  cases c with
  | write ino offset data =>
    cases hout : v.write ino offset data with
    | error e => simp [dataWrites, hout, Except.toOption] at hw
    | ok out => exact write_lands hfit hout (by simpa [dataWrites, hout, Except.toOption] using hw) hi
  | writeAt ino copy offset data =>
    cases hout : v.writeAt ino copy offset data with
    | error e => simp [dataWrites, hout, Except.toOption] at hw
    | ok writes =>
      exact writeAt_lands hfit (c := .writeAt ino copy offset data) rfl hout
        (by simpa [dataWrites, hout, Except.toOption] using hw) hi
  | truncate ino copy newSize =>
    cases hout : v.truncate ino copy newSize with
    | error e => simp [dataWrites, hout, Except.toOption] at hw
    | ok out =>
      exact truncate_lands hfit hout (by simpa [dataWrites, hout, Except.toOption] using hw) hi
  | truncateTo ino newSize =>
    cases hout : v.truncateTo ino newSize with
    | error e => simp [dataWrites, hout, Except.toOption] at hw
    | ok out =>
      cases out with
      | none => simp [dataWrites, hout, Except.toOption] at hw
      | some out =>
        exact truncateTo_lands hfit (hlist newSize rfl) hout
          (by simpa [dataWrites, hout, Except.toOption] using hw) hi
  | exchangeRange a aOffset b bOffset length => simp [dataWrites] at hw

/-! ## Volumes where it matters -/

def zeroDevice : BlockRead where
  readAt := fun _ len => .ok (List.replicate len 0)
  length_eq := by
    intro offset len bytes h
    rw [← Except.ok.inj h, List.length_replicate]

def oneFile (sb : Superblock) (accepted : sb.Accepted) (device : BlockRead) (file : Inode)
    (node : Except Error Node) : Volume where
  sb := sb
  accepted := accepted
  crc32c := zeroCrc
  device := device
  writable := .ok ()
  loggedAnything := false
  exchrange := false
  inode := fun _ => .ok file
  node := fun _ _ => node
  charge := fun _ => .ok ()

def noNode : Except Error Node :=
  .error (.badSuperblock "no block map")

def listedFile (size : ℕ) (extents : List Extent) (sorted : Sorted extents) : Inode where
  version := 3
  regular := true
  realtime := false
  shared := false
  format := .extents
  size := size
  nblocks := blocksIn extents
  nextents := extents.length
  nrext64 := false
  forkLen := 336
  listed := .ok ⟨extents, sorted⟩
  root := .error (.badSuperblock "no block map")

def treeFile (size : ℕ) (nextents : ℕ) (root : ℕ × List ℕ) : Inode where
  version := 3
  regular := true
  realtime := false
  shared := false
  format := .btree
  size := size
  nblocks := nextents
  nextents := nextents
  nrext64 := false
  forkLen := 336
  listed := .error (.badSuperblock "a block map")
  root := .ok root

def calmVolume : Volume :=
  oneFile smallBlocks smallBlocks_accepted calmDevice (listedFile 0 [] trivial) noNode

theorem calmVolume_writes : calmVolume.dataWrites (.write 131 3 [7]) =
    [(51200, [0, 0, 0, 7] ++ List.replicate 508 0)] := by
  decide +kernel

theorem dataWrites_inBlock_calm :
    calmVolume.dataWrites (.write 131 3 [7]) = [(51200, [0, 0, 0, 7] ++ List.replicate 508 0)] ∧
      calmVolume.Lands (.write 131 3 [7]) (51200 + 3) := by
  refine ⟨calmVolume_writes, ?_⟩
  refine dataWrites_inBlock calmVolume (by decide) _ (fun _ h => by cases h)
    (51200, [0, 0, 0, 7] ++ List.replicate 508 0) ?_ 3 ?_
  · rw [calmVolume_writes]
    exact List.mem_singleton_self _
  · rw [List.length_append, List.length_replicate]
    decide

def logFile : Inode :=
  listedFile 4096 [⟨0, 8, 4, false⟩] (by decide)

def strayFile : Inode :=
  treeFile 1024 1 (0, [20])

def farFile : Inode :=
  listedFile 65536 [⟨0, 2 ^ 49 + 8, 1, false⟩] (by decide)

def shortGroup : Superblock :=
  { smallBlocks with dblocks := 90, agcount := 1 }

theorem shortGroup_accepted : shortGroup.Accepted :=
  { smallBlocks_accepted with
    dblocks_lt := by decide
    agcount_lt := by decide
    valid := by decide +kernel }

/-- The bounds check lets a write land on the log; a truncate in place writes the inode's record; the
tree a truncate walks is not checked, and the zeroing of its tail can land on the next group's
header; an address past 64 bits comes round to the first group's header; and a block the allocator
takes can be past the volume's end. -/
theorem dataWrites_not_inBounds :
    ((oneFile twoGroups twoGroups_accepted zeroDevice logFile noNode).dataWrites
        (.writeAt 100 logFile 0 [1]) = [(8192, [1])] ∧
      twoGroups.fsblockOffset twoGroups.logstart = 8192) ∧
    (oneFile twoGroups twoGroups_accepted zeroDevice logFile noNode).truncate 100 logFile 2048 =
      .ok ([], some 43008) ∧
    ((oneFile twoGroups twoGroups_accepted zeroDevice strayFile
        (.ok (.leaf [⟨0, 24, 1, false⟩] (by decide)))).dataWrites (.truncateTo 100 1000) =
          [(1 * 24 * 1024 + 1000, List.replicate 24 0)] ∧
      twoGroups.extentInBounds 24 1 = false) ∧
    (oneFile hugeGroups hugeGroups_accepted zeroDevice farFile noNode).dataWrites
      (.writeAt 100 farFile 513 [1]) = [(512, [1])] ∧
    (oneFile shortGroup shortGroup_accepted calmDevice (listedFile 0 [] trivial) noNode).takenBy
        (.write 131 0 [7]) = [⟨0, 100, 1, false⟩] ∧
      shortGroup.extentInBounds 100 1 = false := by
  refine ⟨⟨by decide +kernel, by decide⟩, ?_, ⟨by decide +kernel, by decide⟩, by decide +kernel,
    by decide +kernel, by decide⟩
  rfl

end Volume

end FsXfs.File
