import FsXfs.File.Layout
import FsXfs.File.Read

/-!
# What an exchange does to two files

The volume an exchange leaves, read back: each range reads as the other file's did, nothing else
changes, every block stays mapped as often as it was, and the block maps' blocks come from the free
space and go back to it. What it does not do is clear the bytes past a file's end that the exchange
brings inside the other file.
-/

namespace FsXfs.File

open FsXfs.Group

set_option autoImplicit false

namespace Volume

/-! ## The steps of an exchange -/

variable {v : Volume} {b fb ino : ℕ}

theorem foldlM_editAt {given taken : List (ℕ × ℕ)} {groups groups' : Groups}
    {edit : GroupAlloc → Rmap → Except Error GroupAlloc} {records : List (ℕ × Rmap)}
    (hedit : ∀ ed ed' record, edit ed record = .ok ed' →
      ed'.byBlock = ed.byBlock ∧ ed'.refcount = ed.refcount) (h : Edited v given taken groups)
    (hfold : records.foldlM (v.editAt edit) groups = .ok groups') :
    Edited v given taken groups' := by
  refine foldlM_invariant (fun mid mid' record _ hmid hstep => ?_) h hfold
  obtain ⟨ed, hgroup, hstep⟩ := bind_eq_ok.mp hstep
  obtain ⟨ed', hrecord, hstep⟩ := bind_eq_ok.mp hstep
  cases hstep
  obtain ⟨hfree, hcounts⟩ := hedit ed ed' record.2 hrecord
  exact hmid.edit hgroup hfree hcounts

theorem moveRmaps_edited {inA inB : List Extent} {a fa : ℕ} {groups : Groups}
    (h : v.moveRmaps inA inB a b fa fb = .ok groups) : Edited v [] [] groups := by
  unfold moveRmaps at h
  split at h
  · obtain ⟨movesA, -, h⟩ := bind_eq_ok.mp h
    obtain ⟨movesB, -, h⟩ := bind_eq_ok.mp h
    obtain ⟨mid, hout, h⟩ := bind_eq_ok.mp h
    exact foldlM_editAt (fun _ _ _ => rememberMovedRmap_same)
      (foldlM_editAt (fun _ _ _ => forgetRmap_same) (edited_nil v) hout) h
  · cases h
    exact edited_nil v

def replaced (own other : List Extent) (to_ from_ n : ℕ) : List Extent :=
  joined ((cut own to_ n).2 ++ shifted (cut other from_ n).1 from_ to_)

/-- What an exchange that was made went through. -/
structure Made (v : Volume) (a aOffset b bOffset length : ℕ) (ia ib : Inode)
    (oldA oldB : List Extent) (ex : Exchanged) : Prop where
  distinct : a ≠ b
  regular : ia.regular = true ∧ ib.regular = true
  aligned : v.sb.blocksize ∣ aOffset ∧ v.sb.blocksize ∣ bOffset ∧ v.sb.blocksize ∣ length
  newA : ex.newA = replaced oldA oldB (aOffset / v.sb.blocksize) (bOffset / v.sb.blocksize)
    (length / v.sb.blocksize)
  newB : ex.newB = replaced oldB oldA (bOffset / v.sb.blocksize) (aOffset / v.sb.blocksize)
    (length / v.sb.blocksize)
  maps : ∃ moved mid, Edited v [] [] moved ∧
    v.mapDataFork a ia ex.newA moved = .ok (ex.mapA, mid) ∧
    v.mapDataFork b ib ex.newB mid = .ok (ex.mapB, ex.groups)
  groupA : (v.sb.splitIno a).1 < v.sb.agcount
  groupB : (v.sb.splitIno b).1 < v.sb.agcount

theorem inodeOffset_ok {sb : Superblock} {offset : ℕ} (h : sb.inodeOffset ino = .ok offset) :
    (sb.splitIno ino).1 < sb.agcount := by
  unfold Superblock.inodeOffset at h
  split at h
  next hag =>
    split at h
    · cases h
    · next hlt => exact lt_of_eq_of_lt (congrArg Prod.fst hag) (not_le.mp hlt)

theorem exchangeRange_made {a aOffset bOffset length : ℕ} {ia ib : Inode} {oldA oldB : List Extent}
    {ex : Exchanged} (h : v.exchangeRange a aOffset b bOffset length = .ok ex)
    (ha : v.inode a = .ok ia) (hb : v.inode b = .ok ib) (hoa : v.dataExtents a ia = .ok oldA)
    (hob : v.dataExtents b ib = .ok oldB) :
    Made v a aOffset b bOffset length ia ib oldA oldB ex := by
  obtain ⟨_, -, h⟩ := bind_eq_ok.mp h
  obtain ⟨_, -, h⟩ := bind_eq_ok.mp h
  obtain ⟨_, -, h⟩ := bind_eq_ok.mp h
  obtain ⟨_, hne, h⟩ := bind_eq_ok.mp h
  obtain ⟨_, -, h⟩ := bind_eq_ok.mp h
  obtain ⟨_, haligned, h⟩ := bind_eq_ok.mp h
  obtain ⟨ia', ha', h⟩ := bind_eq_ok.mp h
  obtain ⟨ib', hb', h⟩ := bind_eq_ok.mp h
  obtain rfl := Except.ok.inj (ha.symm.trans ha')
  obtain rfl := Except.ok.inj (hb.symm.trans hb')
  obtain ⟨_, hrangeA, h⟩ := bind_eq_ok.mp h
  obtain ⟨_, hrangeB, h⟩ := bind_eq_ok.mp h
  obtain ⟨oldA', hoa', h⟩ := bind_eq_ok.mp h
  obtain ⟨oldB', hob', h⟩ := bind_eq_ok.mp h
  obtain rfl := Except.ok.inj (hoa.symm.trans hoa')
  obtain rfl := Except.ok.inj (hob.symm.trans hob')
  obtain ⟨moved, hmoved, h⟩ := bind_eq_ok.mp h
  obtain ⟨⟨mapA, mid⟩, hmapA, h⟩ := bind_eq_ok.mp h
  obtain ⟨⟨mapB, groups⟩, hmapB, h⟩ := bind_eq_ok.mp h
  obtain ⟨_, -, h⟩ := bind_eq_ok.mp h
  obtain ⟨blocksA, -, h⟩ := bind_eq_ok.mp h
  obtain ⟨blocksB, -, h⟩ := bind_eq_ok.mp h
  obtain ⟨_, -, h⟩ := bind_eq_ok.mp h
  obtain ⟨_, -, h⟩ := bind_eq_ok.mp h
  obtain ⟨_, -, h⟩ := bind_eq_ok.mp h
  obtain ⟨_, -, h⟩ := bind_eq_ok.mp h
  obtain ⟨_, hoffA, h⟩ := bind_eq_ok.mp h
  obtain ⟨_, hoffB, h⟩ := bind_eq_ok.mp h
  cases h
  obtain ⟨_, hregA, -⟩ := bind_eq_ok.mp (bind_eq_ok.mp hrangeA).choose_spec.1
  obtain ⟨_, hregB, -⟩ := bind_eq_ok.mp (bind_eq_ok.mp hrangeB).choose_spec.1
  exact {
    distinct := ensure_eq_ok.mp hne
    regular := ⟨ensure_eq_ok.mp hregA, ensure_eq_ok.mp hregB⟩
    aligned := ensure_eq_ok.mp haligned
    newA := rfl
    newB := rfl
    maps := ⟨moved, mid, moveRmaps_edited hmoved, hmapA, hmapB⟩
    groupA := inodeOffset_ok hoffA
    groupB := inodeOffset_ok hoffB }

/-! ## What a file that took a range maps -/

section

variable {own other : List Extent} {to_ from_ n : ℕ}

theorem mapsTo_replaced {phys : ℕ} {u : Bool} :
    MapsTo (replaced own other to_ from_ n) fb phys u ↔
      if to_ ≤ fb ∧ fb < to_ + n then MapsTo other (fb - to_ + from_) phys u
      else MapsTo own fb phys u := by
  have hfrom : ∀ e ∈ (cut other from_ n).1, from_ ≤ e.startoff := by
    intro e he
    obtain ⟨whole, -, he⟩ := List.mem_flatMap.mp he
    exact (mem_inside he).2.1
  rw [replaced, mapsTo_joined, mapsTo_append, mapsTo_shifted hfrom, mapsTo_cut.1, mapsTo_cut.2]
  split
  next hin =>
    constructor
    · rintro (⟨-, hout⟩ | ⟨-, hmaps, -⟩)
      · exact absurd hin hout
      · exact hmaps
    · exact fun hmaps => .inr ⟨hin.1, hmaps, by omega, by omega⟩
  next hout =>
    constructor
    · rintro (⟨hmaps, -⟩ | ⟨hle, -, hlo, hhi⟩)
      · exact hmaps
      · exact absurd ⟨hle, by omega⟩ hout
    · exact fun hmaps => .inl ⟨hmaps, hout⟩

theorem sorted_replaced (hown : Sorted own) (hother : Sorted other) :
    Sorted (replaced own other to_ from_ n) :=
  sorted_joined (apart_replaced (apart_of_sorted hown) (apart_of_sorted hother))

theorem countHolds_replaced (b : ℕ) :
    countHolds b (replaced own other to_ from_ n) + countHolds b (replaced other own from_ to_ n) =
      countHolds b own + countHolds b other := by
  have hown : countHolds b (cut own to_ n).1 + countHolds b (cut own to_ n).2 = countHolds b own :=
    countHolds_cut
  have hother : countHolds b (cut other from_ n).1 + countHolds b (cut other from_ n).2 =
      countHolds b other := countHolds_cut
  simp only [replaced, countHolds_joined, countHolds_append, countHolds_shifted]
  omega

theorem holds_replaced (h : ∃ e ∈ replaced own other to_ from_ n, e.Holds b) :
    ∃ e ∈ own ++ other, e.Holds b := by
  have hpos := countHolds_pos_iff.mpr h
  have hsum := @countHolds_replaced own other to_ from_ n b
  refine countHolds_pos_iff.mp ?_
  rw [countHolds_append]
  omega

end

/-! ## What an exchange leaves -/

def InBlocks (sb : Superblock) (blocks : List ℕ) (address : ℕ) : Prop :=
  ∃ agno agbno, agno < sb.agcount ∧ agbno < sb.agblocks ∧ packBlock sb agno agbno ∈ blocks ∧
    InBlock sb address agno agbno

def FreeBlock (v : Volume) (x : ℕ) : Prop :=
  ∃ agno agbno, x = packBlock v.sb agno agbno ∧ v.FreeAt agno agbno

def FreeAfter (v : Volume) (groups : Groups) (agno b : ℕ) : Prop :=
  match groups.lookup agno with
  | some ed => Free ed.byBlock b
  | none => v.FreeAt agno b

def oldTrees (v : Volume) (a b : ℕ) (ia ib : Inode) : List ℕ :=
  v.treeBlocks a ia ++ v.treeBlocks b ib

def newTrees (ex : Exchanged) : List ℕ :=
  ex.mapA.images.map Prod.fst ++ ex.mapB.images.map Prod.fst

/-- The volume keeps each block for one thing: what the two files map is neither free nor part of
their block maps, and their block maps' blocks are not free and not shared. -/
structure Consistent (v : Volume) (a b : ℕ) (ia ib : Inode) (oldA oldB : List Extent) : Prop where
  addressable : Addressable v.sb
  sorted : Sorted oldA ∧ Sorted oldB
  trees : ∀ x ∈ oldTrees v a b ia ib, Placed v.sb x ∧ ¬v.FreeBlock x
  treesApart : ∀ x ∈ v.treeBlocks a ia, x ∉ v.treeBlocks b ib
  data : ∀ x, (∃ e ∈ oldA ++ oldB, e.Holds x) → ¬v.FreeBlock x ∧ x ∉ oldTrees v a b ia ib

/-- File `a` has taken the range of `b`, as `w` reads it from `disk'`, where `v` and `disk` were
before. -/
structure Took (v w : Volume) (disk disk' : ℕ → UInt8) (a aOffset b bOffset length : ℕ)
    (ia ib : Inode) : Prop where
  size : ∃ ja, w.inode a = .ok ja ∧ ja.size = ia.size
  inside : ∀ k < length, aOffset + k < ia.size → bOffset + k < ib.size →
    ∀ x, Reads w disk' a (aOffset + k) x ↔ Reads v disk b (bOffset + k) x
  outside : ∀ pos, ¬(aOffset ≤ pos ∧ pos < aOffset + length) →
    ∀ x, Reads w disk' a pos x ↔ Reads v disk a pos x
  exposed : ∀ k < length, aOffset + k < ia.size → ib.size ≤ bOffset + k →
    Reads w disk' a (aOffset + k) 0

/-- The outcome of an exchange, whatever the blocks of the new block maps are written with. -/
structure Swapped (v : Volume) (disk : ℕ → UInt8) (a aOffset b bOffset length : ℕ) (ia ib : Inode)
    (oldA oldB : List Extent) (ex : Exchanged) : Prop where
  bytes : ∀ disk' : ℕ → UInt8,
    (∀ address, ¬InBlocks v.sb (newTrees ex) address → disk' address = disk address) →
    Took v (v.exchanged a b ia ib ex) disk disk' a aOffset b bOffset length ia ib ∧
      Took v (v.exchanged a b ia ib ex) disk disk' b bOffset a aOffset length ib ia
  mapped : ∃ ja jb, (v.exchanged a b ia ib ex).inode a = .ok ja ∧
    (v.exchanged a b ia ib ex).dataExtents a ja = .ok ex.newA ∧
    (v.exchanged a b ia ib ex).inode b = .ok jb ∧
    (v.exchanged a b ia ib ex).dataExtents b jb = .ok ex.newB ∧
    ∀ x, countHolds x ex.newA + countHolds x ex.newB = countHolds x oldA + countHolds x oldB
  treesOnce : (newTrees ex).Nodup ∧ ∀ x ∈ newTrees ex, ¬∃ e ∈ ex.newA ++ ex.newB, e.Holds x
  free : ∀ agno agbno, agno < v.sb.agcount → agbno < v.sb.agblocks →
    (v.FreeAfter ex.groups agno agbno ↔
      (v.FreeAt agno agbno ∨ packBlock v.sb agno agbno ∈ oldTrees v a b ia ib) ∧
        packBlock v.sb agno agbno ∉ newTrees ex)
  counts : ∀ agno ed, ex.groups.lookup agno = some ed →
    ∃ group, openGroup v.crc32c v.sb v.device agno = .ok group ∧ ed.refcount = group.refcount

/-- Each byte of one file's range past its end that the exchange puts inside the other file is
stored as zero. -/
def ExposesZeros (sb : Superblock) (disk : ℕ → UInt8) (aOffset bOffset length : ℕ) (ia ib : Inode)
    (oldA oldB : List Extent) : Prop :=
  ∀ k < length,
    (aOffset + k < ia.size → ib.size ≤ bOffset + k → byteAt sb disk oldB (bOffset + k) = 0) ∧
    (bOffset + k < ib.size → ia.size ≤ aOffset + k → byteAt sb disk oldA (aOffset + k) = 0)

/-! ## Reading the files back -/

section

variable {sb : Superblock} {disk disk' : ℕ → UInt8} {own other : List Extent}
  {aOffset bOffset length : ℕ}

section

variable (hown : Sorted own) (hother : Sorted other)
  (haligned : sb.blocksize ∣ aOffset ∧ sb.blocksize ∣ bOffset ∧ sb.blocksize ∣ length)

include hown hother haligned

theorem byteAt_inside {k : ℕ} (hk : k < length) (hpos : 0 < sb.blocksize)
    (hdisk : ∀ phys u fb, MapsTo other fb phys u → ∀ i < sb.blocksize,
      disk' (wrap64 (sb.fsblockOffset phys + i)) = disk (wrap64 (sb.fsblockOffset phys + i))) :
    byteAt sb disk' (replaced own other (aOffset / sb.blocksize) (bOffset / sb.blocksize)
      (length / sb.blocksize)) (aOffset + k) = byteAt sb disk other (bOffset + k) := by
  obtain ⟨⟨fa, rfl⟩, ⟨fb, rfl⟩, ⟨n, rfl⟩⟩ := haligned
  have hlt : k / sb.blocksize < n := Nat.div_lt_of_lt_mul hk
  have hmaps : ∀ phys u, MapsTo (replaced own other fa fb n) (fa + k / sb.blocksize) phys u ↔
      MapsTo other (fb + k / sb.blocksize) phys u := by
    intro phys u
    rw [mapsTo_replaced, if_pos ⟨Nat.le_add_right _ _, Nat.add_lt_add_left hlt _⟩,
      Nat.add_sub_cancel_left, Nat.add_comm]
  simp only [Nat.mul_div_cancel_left _ hpos]
  refine byteAt_eq_of_mapsTo (sorted_replaced hown hother) hother ?_ ?_ ?_
  · rw [Nat.mul_add_mod, Nat.mul_add_mod]
  · simp only [Nat.mul_add_div hpos]
    exact hmaps
  · intro phys h
    rw [Nat.mul_add_div hpos] at h
    exact hdisk phys false _ ((hmaps phys false).mp h) _ (Nat.mod_lt _ hpos)

theorem byteAt_outside {pos : ℕ} (hout : ¬(aOffset ≤ pos ∧ pos < aOffset + length))
    (hpos : 0 < sb.blocksize) (hdisk : ∀ phys u fb, MapsTo own fb phys u → ∀ i < sb.blocksize,
      disk' (wrap64 (sb.fsblockOffset phys + i)) = disk (wrap64 (sb.fsblockOffset phys + i))) :
    byteAt sb disk' (replaced own other (aOffset / sb.blocksize) (bOffset / sb.blocksize)
      (length / sb.blocksize)) pos = byteAt sb disk own pos := by
  obtain ⟨⟨fa, rfl⟩, ⟨fb, rfl⟩, ⟨n, rfl⟩⟩ := haligned
  have hblock : ¬(fa ≤ pos / sb.blocksize ∧ pos / sb.blocksize < fa + n) := by
    rw [Nat.le_div_iff_mul_le hpos, Nat.div_lt_iff_lt_mul hpos, Nat.add_mul, Nat.mul_comm fa,
      Nat.mul_comm n]
    exact hout
  simp only [Nat.mul_div_cancel_left _ hpos]
  have hmaps : ∀ phys u, MapsTo (replaced own other fa fb n) (pos / sb.blocksize) phys u ↔
      MapsTo own (pos / sb.blocksize) phys u := by
    intro phys u
    rw [mapsTo_replaced, if_neg hblock]
  refine byteAt_eq_of_mapsTo (sorted_replaced hown hother) hown rfl hmaps fun phys h => ?_
  exact hdisk phys false _ ((hmaps phys false).mp h) _ (Nat.mod_lt _ hpos)

end

end

/-- One file of an exchange, before in `v` and after in `w`. -/
structure Side (v w : Volume) (a aOffset b bOffset length : ℕ) (ia ib : Inode)
    (oldA oldB : List Extent) : Prop where
  sameSb : w.sb = v.sb
  inodes : v.inode a = .ok ia ∧ v.inode b = .ok ib
  regular : ia.regular = true ∧ ib.regular = true
  lists : v.dataExtents a ia = .ok oldA ∧ v.dataExtents b ib = .ok oldB
  sorted : Sorted oldA ∧ Sorted oldB
  aligned : v.sb.blocksize ∣ aOffset ∧ v.sb.blocksize ∣ bOffset ∧ v.sb.blocksize ∣ length
  after : ∃ ja, w.inode a = .ok ja ∧ ja.regular = true ∧ ja.size = ia.size ∧
    w.dataExtents a ja = .ok (replaced oldA oldB (aOffset / v.sb.blocksize)
      (bOffset / v.sb.blocksize) (length / v.sb.blocksize))

section

variable {v w : Volume} {a aOffset b bOffset length : ℕ} {ia ib : Inode} {oldA oldB : List Extent}
  {disk disk' : ℕ → UInt8}

theorem Side.reads_iff (h : Side v w a aOffset b bOffset length ia ib oldA oldB) {pos : ℕ}
    {x : UInt8} : Reads w disk' a pos x ↔ pos < ia.size ∧
      byteAt v.sb disk' (replaced oldA oldB (aOffset / v.sb.blocksize) (bOffset / v.sb.blocksize)
        (length / v.sb.blocksize)) pos = x := by
  obtain ⟨ja, hinode, hregular, hsize, hlist⟩ := h.after
  rw [Volume.reads_iff hinode hregular hlist, hsize, h.sameSb]

theorem Side.took_iff (h : Side v w a aOffset b bOffset length ia ib oldA oldB)
    (hdisk : ∀ phys u fb, MapsTo (oldA ++ oldB) fb phys u → ∀ i < v.sb.blocksize,
      disk' (wrap64 (v.sb.fsblockOffset phys + i)) = disk (wrap64 (v.sb.fsblockOffset phys + i))) :
    Took v w disk disk' a aOffset b bOffset length ia ib ↔
      ∀ k < length, aOffset + k < ia.size → ib.size ≤ bOffset + k →
        byteAt v.sb disk oldB (bOffset + k) = 0 := by
  have hpos : 0 < v.sb.blocksize := by
    have := v.accepted.geometry.blocksize_ge
    omega
  have hin : ∀ k < length, byteAt v.sb disk' (replaced oldA oldB (aOffset / v.sb.blocksize)
      (bOffset / v.sb.blocksize) (length / v.sb.blocksize)) (aOffset + k) =
        byteAt v.sb disk oldB (bOffset + k) := fun k hk =>
    byteAt_inside h.sorted.1 h.sorted.2 h.aligned hk hpos fun phys u fb hmaps =>
      hdisk phys u fb (mapsTo_append.mpr (.inr hmaps))
  constructor
  · intro htook k hk hka hkb
    rw [← hin k hk]
    exact (h.reads_iff.mp (htook.exposed k hk hka hkb)).2
  · intro hzero
    obtain ⟨ja, hinode, -, hsize, -⟩ := h.after
    refine ⟨⟨ja, hinode, hsize⟩, fun k hk hka hkb x => ?_, fun pos hout x => ?_,
      fun k hk hka hkb => ?_⟩
    · rw [h.reads_iff, Volume.reads_iff h.inodes.2 h.regular.2 h.lists.2, hin k hk]
      exact and_congr_left fun _ => iff_of_true hka hkb
    · rw [h.reads_iff, Volume.reads_iff h.inodes.1 h.regular.1 h.lists.1,
        byteAt_outside h.sorted.1 h.sorted.2 h.aligned hout hpos fun phys u fb hmaps =>
          hdisk phys u fb (mapsTo_append.mpr (.inl hmaps))]
    · rw [h.reads_iff, hin k hk]
      exact ⟨hka, hzero k hk hka hkb⟩

end

/-! ## The blocks an exchange takes -/

section

variable {v : Volume} {a aOffset b bOffset length : ℕ} {ia ib : Inode} {oldA oldB : List Extent}
  {ex : Exchanged}

variable {agno agbno : ℕ}

theorem mem_map_splitFsblock {blocks : List ℕ} (hplaced : ∀ x ∈ blocks, Placed v.sb x)
    (hag : agno < v.sb.agcount) (hb : agbno < v.sb.agblocks) :
    (agno, agbno) ∈ blocks.map v.sb.splitFsblock ↔ packBlock v.sb agno agbno ∈ blocks := by
  rw [List.mem_map]
  constructor
  · rintro ⟨x, hx, heq⟩
    have hpack := (pack_splitFsblock (hplaced x hx)).2.2
    rw [heq] at hpack
    rwa [hpack]
  · exact fun hx => ⟨_, hx, splitFsblock_packBlock v.accepted hag hb⟩

/-- What the two block maps' layouts did, each block taken with its group. -/
structure Layouts (v : Volume) (a b : ℕ) (ia ib : Inode) (ex : Exchanged)
    (pairs : List (ℕ × ℕ)) : Prop where
  blocks : newTrees ex = pairs.map fun p => packBlock v.sb p.1 p.2
  nodup : pairs.Nodup
  from_ : ∀ p ∈ pairs, p.1 < v.sb.agcount ∧
    (v.FreeAt p.1 p.2 ∨ p ∈ (oldTrees v a b ia ib).map v.sb.splitFsblock)
  edited : Edited v ((oldTrees v a b ia ib).map v.sb.splitFsblock) pairs ex.groups
  laidA : LaidOut v.sb a ia ex.newA ex.mapA
  laidB : LaidOut v.sb b ib ex.newB ex.mapB

theorem Made.layouts (hmade : Made v a aOffset b bOffset length ia ib oldA oldB ex)
    (hc : Consistent v a b ia ib oldA oldB) : ∃ pairs, Layouts v a b ia ib ex pairs := by
  obtain ⟨moved, mid, hmoved, hmapA, hmapB⟩ := hmade.maps
  have hplaced : ∀ x ∈ oldTrees v a b ia ib, Placed v.sb x := fun x hx => (hc.trees x hx).1
  obtain ⟨hlaidA, bsA, hblocksA, hnodupA, hfromA, heditedA⟩ := mapDataFork_spec hmoved
    (fun x hx => hplaced x (List.mem_append_left _ hx)) (by simp) hmapA
  rw [List.nil_append] at hfromA heditedA
  have hkept : ∀ x ∈ v.treeBlocks b ib,
      v.sb.splitFsblock x ∉ [] ++ bsA.map fun n => ((v.sb.splitIno a).1, n) := by
    intro x hx hmem
    obtain ⟨n, hn, heq⟩ := List.mem_map.mp hmem
    have hold := hc.trees x (List.mem_append_right _ hx)
    have hpack := (pack_splitFsblock hold.1).2.2
    rw [← heq] at hpack
    rcases (hfromA n hn).1 with hfree | htree
    · exact hold.2 ⟨_, _, hpack.symm, hfree⟩
    · obtain ⟨y, hy, hsplit⟩ := List.mem_map.mp htree
      have hpackY := (pack_splitFsblock (hplaced y (List.mem_append_left _ hy))).2.2
      rw [hsplit, hpack] at hpackY
      exact hc.treesApart y hy (hpackY ▸ hx)
  obtain ⟨hlaidB, bsB, hblocksB, hnodupB, hfromB, heditedB⟩ := mapDataFork_spec heditedA
    (fun x hx => hplaced x (List.mem_append_right _ hx)) hkept hmapB
  rw [List.nil_append] at hfromB heditedB
  rw [← List.map_append] at hfromB heditedB
  refine ⟨_, ?_, ?_, ?_, heditedB, hlaidA, hlaidB⟩
  · rw [newTrees, hblocksA, hblocksB, List.map_append, List.map_map, List.map_map]
    rfl
  · refine List.nodup_append.mpr ⟨hnodupA.map fun m n hmn => (Prod.mk.inj hmn).2,
      hnodupB.map fun m n hmn => (Prod.mk.inj hmn).2, ?_⟩
    rintro p hp q hq rfl
    obtain ⟨n, hn, rfl⟩ := List.mem_map.mp hq
    exact (hfromB n hn).2 hp
  · intro p hp
    rcases List.mem_append.mp hp with hp | hp
    · obtain ⟨n, hn, rfl⟩ := List.mem_map.mp hp
      refine ⟨hmade.groupA, (hfromA n hn).1.imp_right fun hmem => ?_⟩
      rw [oldTrees, List.map_append]
      exact List.mem_append_left _ hmem
    · obtain ⟨n, hn, rfl⟩ := List.mem_map.mp hp
      exact ⟨hmade.groupB, (hfromB n hn).1⟩

variable {pairs : List (ℕ × ℕ)} (hl : Layouts v a b ia ib ex pairs)
  (hc : Consistent v a b ia ib oldA oldB)

include hl hc

theorem Layouts.pair_lt {p : ℕ × ℕ} (hp : p ∈ pairs) :
    p.1 < v.sb.agcount ∧ p.2 < v.sb.agblocks := by
  obtain ⟨hag, hfree | htree⟩ := hl.from_ p hp
  · exact ⟨hag, hfree.bounds.2⟩
  · obtain ⟨x, hx, rfl⟩ := List.mem_map.mp htree
    exact ⟨hag, (pack_splitFsblock (hc.trees x hx).1).2.1⟩

theorem Layouts.mem_newTrees (hb : agbno < v.sb.agblocks) :
    packBlock v.sb agno agbno ∈ newTrees ex ↔ (agno, agbno) ∈ pairs := by
  have hpow := v.agblocks_le_pow
  rw [hl.blocks, List.mem_map]
  constructor
  · rintro ⟨p, hp, heq⟩
    have hlt := (hl.pair_lt hc hp).2
    obtain ⟨rfl, rfl⟩ := packBlock_inj (by omega) (by omega) heq
    exact hp
  · exact fun hp => ⟨_, hp, rfl⟩

theorem Layouts.newTrees_nodup : (newTrees ex).Nodup := by
  have hpow := v.agblocks_le_pow
  rw [hl.blocks]
  refine List.Nodup.map_on (fun p hp q hq heq => ?_) hl.nodup
  have hpLt := (hl.pair_lt hc hp).2
  have hqLt := (hl.pair_lt hc hq).2
  obtain ⟨h1, h2⟩ := packBlock_inj (by omega) (by omega) heq
  exact Prod.ext h1 h2

theorem Layouts.not_data {x : ℕ} (hx : x ∈ newTrees ex) : ¬∃ e ∈ oldA ++ oldB, e.Holds x := by
  intro hdata
  obtain ⟨hfree, htrees⟩ := hc.data x hdata
  rw [hl.blocks] at hx
  obtain ⟨p, hp, rfl⟩ := List.mem_map.mp hx
  obtain ⟨-, hfrom | hfrom⟩ := hl.from_ p hp
  · exact hfree ⟨_, _, rfl, hfrom⟩
  · obtain ⟨hag, hb⟩ := hl.pair_lt hc hp
    exact htrees ((mem_map_splitFsblock (fun x hx => (hc.trees x hx).1) hag hb).mp hfrom)

theorem Layouts.freeAfter_iff (hag : agno < v.sb.agcount) (hb : agbno < v.sb.agblocks) :
    v.FreeAfter ex.groups agno agbno ↔
      (v.FreeAt agno agbno ∨ packBlock v.sb agno agbno ∈ oldTrees v a b ia ib) ∧
        packBlock v.sb agno agbno ∉ newTrees ex := by
  rw [hl.mem_newTrees hc hb, ← mem_map_splitFsblock (fun x hx => (hc.trees x hx).1) hag hb]
  unfold FreeAfter
  split
  next ed hsome =>
    obtain ⟨group, hopen, -, -, hiff⟩ := hl.edited.opened agno ed hsome
    have hat : v.FreeAt agno agbno ↔ Free group.byBlock agbno :=
      ⟨fun ⟨_, hopen', hfree⟩ => Except.ok.inj (hopen.symm.trans hopen') ▸ hfree,
        fun hfree => ⟨group, hopen, hfree⟩⟩
    rw [hat]
    exact hiff agbno
  next hnone =>
    have hclosed := hl.edited.closed (agno, agbno)
    rw [hnone, Option.isSome_none] at hclosed
    simp only [Bool.false_eq_true, imp_false, not_or] at hclosed
    simp only [hclosed.1, hclosed.2, or_false, not_false_eq_true, and_true]

end

/-! ## The exchange as a whole -/

theorem find_of_nodup {α : Type} {l : List (ℕ × α)} (hnodup : (l.map Prod.fst).Nodup) {k : ℕ} {x : α}
    (h : (k, x) ∈ l) : (l.find? fun p => p.1 = k) = some (k, x) := by
  cases hfind : l.find? fun p => p.1 = k with
  | none => exact absurd (List.find?_eq_none.mp hfind _ h) (by simp)
  | some p =>
    have hkey : p.1 = k := by simpa using List.find?_some hfind
    rw [List.inj_on_of_nodup_map hnodup (List.mem_of_find?_eq_some hfind) h hkey]

theorem readImage_of_mem {sb : Superblock} {fsblock : ℕ} {images : List (ℕ × ℕ × Image)}
    {image : Image} {old : Except Error Node} (hnodup : (images.map Prod.fst).Nodup)
    (h : (fsblock, ino, image) ∈ images) : readImage sb ino images fsblock old = image.read sb := by
  rw [readImage, find_of_nodup hnodup h]
  exact if_pos rfl

section

variable {v : Volume} {a aOffset b bOffset length : ℕ} {ia ib : Inode} {oldA oldB : List Extent}
  {ex : Exchanged}

theorem replaced_dataExtents {w : Volume} {blocks to_ from_ n : ℕ} {inode : Inode}
    {own other new : List Extent} {map : ForkMap} {reflink : Bool}
    (hnew : new = replaced own other to_ from_ n) (hreal : inode.realtime = false)
    (hsorted : Sorted own ∧ Sorted other)
    (hown : ∀ e ∈ own, w.sb.extentInBounds e.startblock e.blockcount = true)
    (hother : ∀ e ∈ other, w.sb.extentInBounds e.startblock e.blockcount = true)
    (hlaid : LaidOut w.sb ino inode new map)
    (hread : ∀ p ∈ map.images, w.node ino p.1 = p.2.read w.sb) :
    w.dataExtents ino (ForkMap.inode map inode blocks new.length reflink) = .ok new := by
  subst hnew
  refine dataExtents_of hreal (forkExtents_laid (sorted_replaced hsorted.1 hsorted.2) hlaid hread) ?_
  refine joined_inBounds fun x hx => ?_
  rcases List.mem_append.mp hx with hx | hx
  · obtain ⟨e, he, hx⟩ := List.mem_flatMap.mp hx
    exact (mem_outside ((apart_of_sorted hsorted.1).pos e he) hx).1.inBounds (hown e he)
  · obtain ⟨y, hy, rfl⟩ := List.mem_map.mp hx
    obtain ⟨e, he, hy⟩ := List.mem_flatMap.mp hy
    exact (mem_inside hy).1.inBounds (hother e he)

theorem exchanged_node {pairs : List (ℕ × ℕ)} (hl : Layouts v a b ia ib ex pairs)
    (hc : Consistent v a b ia ib oldA oldB) :
    (∀ p ∈ ex.mapA.images, (v.exchanged a b ia ib ex).node a p.1 = p.2.read v.sb) ∧
      ∀ p ∈ ex.mapB.images, (v.exchanged a b ia ib ex).node b p.1 = p.2.read v.sb := by
  have hkeys : (((ex.mapB.images.map fun p => (p.1, b, p.2)) ++
      ex.mapA.images.map fun p => (p.1, a, p.2)).map Prod.fst).Nodup := by
    rw [List.map_append, List.map_map, List.map_map]
    exact (List.perm_append_comm.nodup_iff).mp (hl.newTrees_nodup hc)
  refine ⟨fun p hp => readImage_of_mem hkeys ?_, fun p hp => readImage_of_mem hkeys ?_⟩
  · exact List.mem_append_right _ (List.mem_map_of_mem hp)
  · exact List.mem_append_left _ (List.mem_map_of_mem hp)

theorem sides (hmade : Made v a aOffset b bOffset length ia ib oldA oldB ex)
    (hc : Consistent v a b ia ib oldA oldB) (ha : v.inode a = .ok ia) (hb : v.inode b = .ok ib)
    (hoa : v.dataExtents a ia = .ok oldA) (hob : v.dataExtents b ib = .ok oldB) :
    (v.exchanged a b ia ib ex).dataExtents a
        (ForkMap.inode ex.mapA ia ex.blocksA ex.newA.length ex.reflink) = .ok ex.newA ∧
      (v.exchanged a b ia ib ex).dataExtents b
        (ForkMap.inode ex.mapB ib ex.blocksB ex.newB.length ex.reflink) = .ok ex.newB ∧
      Side v (v.exchanged a b ia ib ex) a aOffset b bOffset length ia ib oldA oldB ∧
      Side v (v.exchanged a b ia ib ex) b bOffset a aOffset length ib ia oldB oldA := by
  obtain ⟨pairs, hl⟩ := hmade.layouts hc
  obtain ⟨hnodeA, hnodeB⟩ := exchanged_node hl hc
  obtain ⟨-, hrealA, hboundsA⟩ := dataExtents_spec hoa
  obtain ⟨-, hrealB, hboundsB⟩ := dataExtents_spec hob
  have hlistA : (v.exchanged a b ia ib ex).dataExtents a
      (ForkMap.inode ex.mapA ia ex.blocksA ex.newA.length ex.reflink) = .ok ex.newA :=
    replaced_dataExtents hmade.newA hrealA hc.sorted hboundsA hboundsB hl.laidA hnodeA
  have hlistB : (v.exchanged a b ia ib ex).dataExtents b
      (ForkMap.inode ex.mapB ib ex.blocksB ex.newB.length ex.reflink) = .ok ex.newB :=
    replaced_dataExtents hmade.newB hrealB hc.sorted.symm hboundsB hboundsA hl.laidB hnodeB
  refine ⟨hlistA, hlistB, ?_, ?_⟩
  · exact ⟨rfl, ⟨ha, hb⟩, hmade.regular, ⟨hoa, hob⟩, hc.sorted, hmade.aligned, _,
      (if_neg hmade.distinct).trans (if_pos rfl), hmade.regular.1, rfl, hmade.newA ▸ hlistA⟩
  · exact ⟨rfl, ⟨hb, ha⟩, hmade.regular.symm, ⟨hob, hoa⟩, hc.sorted.symm,
      ⟨hmade.aligned.2.1, hmade.aligned.1, hmade.aligned.2.2⟩, _, if_pos rfl, hmade.regular.2, rfl,
      hmade.newB ▸ hlistB⟩

theorem disk_same {pairs : List (ℕ × ℕ)} {disk disk' : ℕ → UInt8}
    (hl : Layouts v a b ia ib ex pairs) (hc : Consistent v a b ia ib oldA oldB)
    (hbounds : ∀ e ∈ oldA ++ oldB, v.sb.extentInBounds e.startblock e.blockcount = true)
    (hdisk : ∀ address, ¬InBlocks v.sb (newTrees ex) address → disk' address = disk address)
    {phys : ℕ} {u : Bool} (hmaps : MapsTo (oldA ++ oldB) fb phys u) {i : ℕ}
    (hi : i < v.sb.blocksize) :
    disk' (wrap64 (v.sb.fsblockOffset phys + i)) = disk (wrap64 (v.sb.fsblockOffset phys + i)) := by
  obtain ⟨e, he, hholds⟩ := holds_of_mapsTo hmaps
  obtain ⟨agno, agbno, rfl, hag, -, hb⟩ := holds_packBlock (hbounds e he) hholds
  refine hdisk _ fun hin => ?_
  obtain ⟨agno', agbno', -, hb', hmem, hin⟩ := hin
  have hhere := inBlock_of_offset v.accepted hc.addressable hag hb (show i + 1 ≤ v.sb.blocksize from hi)
    (show 0 < 1 by decide)
  obtain ⟨rfl, rfl⟩ := inBlock_inj hhere hin hb hb'
  exact hl.not_data hc hmem ⟨e, he, hholds⟩

end

def shortFile : Inode :=
  listedFile 100 [⟨0, 60, 1, false⟩] (by decide)

def longFile : Inode :=
  listedFile 1024 [⟨0, 70, 2, false⟩] (by decide)

def twoFiles : Volume where
  sb := smallBlocks
  accepted := smallBlocks_accepted
  crc32c := zeroCrc
  device := calmDevice
  writable := .ok ()
  loggedAnything := false
  exchrange := true
  inode := fun ino => .ok (if ino = 131 then shortFile else longFile)
  node := fun _ _ => noNode
  charge := fun _ => .ok ()

theorem twoFiles_exchange :
    ∃ ex, twoFiles.exchangeRange 131 0 132 0 512 = .ok ex :=
  exists_ok_of_toBool (by decide +kernel)

theorem twoFiles_free {x : ℕ} (h : twoFiles.FreeBlock x) : 100 ≤ x := by
  obtain ⟨agno, agbno, rfl, hfree⟩ := h
  have hlt : agbno < 256 := hfree.bounds.2
  have heq : packBlock smallBlocks agno agbno = agno * 256 + agbno := packBlock_eq hlt
  have hsample : (openGroup zeroCrc smallBlocks calmDevice 0).toOption.map (·.byBlock) =
      some [⟨100, 50⟩] := by decide +kernel
  obtain ⟨group, hopen, run, hmem, hin⟩ := hfree
  rw [show twoFiles.sb = smallBlocks from rfl, heq]
  rcases Nat.eq_zero_or_pos agno with rfl | hpos
  · have hruns : group.byBlock = [⟨100, 50⟩] := by
      rw [show openGroup zeroCrc smallBlocks calmDevice 0 = .ok group from hopen] at hsample
      exact Option.some.inj hsample
    rw [hruns] at hmem
    obtain rfl := List.mem_singleton.mp hmem
    have hge : 100 ≤ agbno := hin.1
    omega
  · omega

theorem twoFiles_consistent : Consistent twoFiles 131 132 shortFile longFile [⟨0, 60, 1, false⟩]
    [⟨0, 70, 2, false⟩] where
  addressable := by decide
  sorted := ⟨by decide, by decide⟩
  trees := fun x hx => absurd hx (by simp [oldTrees, treeBlocks, shortFile, longFile, listedFile])
  treesApart := fun x hx => absurd hx (by simp [treeBlocks, shortFile, listedFile])
  data := by
    rintro x ⟨e, he, hge, hlt⟩
    refine ⟨fun hfree => ?_, by simp [oldTrees, treeBlocks, shortFile, longFile, listedFile]⟩
    have := twoFiles_free hfree
    rcases List.mem_cons.mp he with rfl | he
    · change x < 61 at hlt
      omega
    · obtain rfl := List.mem_singleton.mp he
      change x < 72 at hlt
      omega

-- zeros past the short file's end in its block, and nowhere else
def zeroedTail (address : ℕ) : UInt8 :=
  if 60 * 512 + 100 ≤ address ∧ address < 61 * 512 then 0 else 7

end Volume

end FsXfs.File
