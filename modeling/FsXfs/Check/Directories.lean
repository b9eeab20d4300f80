import FsXfs.Check.Inodes
import FsXfs.Directory.Split
import FsXfs.Superblock.Groups

/-!
# Directories the check lists

One visit of the walk, to a directory whose blocks are valid when each is put together through the
extent map. The check lists such a directory from its extents, and `Directory.Whole` decides whether
it reads the blocks the map has.
-/

namespace FsXfs.Check

open Names Directory

set_option autoImplicit false

namespace Walk

section

variable {im : Image} {dir : ℕ} {w : Walk}

/-! ## Entries -/

/-- The entry names an inode in use, of the type it records. -/
def Names (w : Walk) (e : DirEntry) : Prop :=
  ∃ target, w.usable.lookup e.ino = some target ∧ (e.ftype = none ∨ e.ftype = target.fileType)

/-- From one state of the walk to another: each entry adds a link, and the only findings are that a
directory was reached already. -/
structure Counted (w w' : Walk) (entries : List DirEntry) : Prop where
  found : ∃ more, w'.checker.found = w.checker.found ++ more ∧ ∀ f ∈ more, f.code = .dirReachedTwice
  unlisted : w'.unlisted = w.unlisted
  usable : w'.usable = w.usable
  links : ∀ i, w'.links i = w.links i + entries.countP fun e => decide (e.ino = i)

theorem Counted.refl (w : Walk) : Counted w w [] where
  found := ⟨[], (List.append_nil _).symm, by simp⟩
  unlisted := rfl
  usable := rfl
  links := fun _ => rfl

theorem Counted.trans {w w' w'' : Walk} {es fs : List DirEntry} (h : Counted w w' es)
    (h' : Counted w' w'' fs) : Counted w w'' (es ++ fs) where
  found := by
    obtain ⟨more, hmore, hcodes⟩ := h.found
    obtain ⟨more', hmore', hcodes'⟩ := h'.found
    refine ⟨more ++ more', by rw [hmore', hmore, List.append_assoc], fun f hf => ?_⟩
    rcases List.mem_append.mp hf with hf | hf
    · exact hcodes f hf
    · exact hcodes' f hf
  unlisted := h'.unlisted.trans h.unlisted
  usable := h'.usable.trans h.usable
  links := fun i => by rw [h'.links, h.links, List.countP_append, Nat.add_assoc]

theorem links_update (links : ℕ → ℕ) (e : DirEntry) (i : ℕ) :
    Function.update links e.ino (links e.ino + 1) i =
      links i + [e].countP fun e => decide (e.ino = i) := by
  by_cases h : e.ino = i
  · subst h
    simp
  · rw [Function.update_of_ne (Ne.symm h)]
    simp [h]

theorem follow_counted {e : DirEntry} {target : Inode}
    (htype : e.ftype = none ∨ e.ftype = target.fileType) :
    Counted w (follow im dir e target w) [e] := by
  have hagree : ¬(im.sb.hasFtype = true ∧ e.ftype ≠ none ∧ e.ftype ≠ target.fileType) := by
    rintro ⟨-, hnone, hne⟩
    exact htype.elim hnone hne
  unfold follow
  simp only [hagree, if_false]
  split
  · split
    · exact ⟨⟨_, rfl, by simp⟩, rfl, rfl, links_update w.links e⟩
    · exact ⟨⟨[], (List.append_nil _).symm, by simp⟩, rfl, rfl, links_update w.links e⟩
  · exact ⟨⟨[], (List.append_nil _).symm, by simp⟩, rfl, rfl, links_update w.links e⟩

theorem entry_counted {e : DirEntry} (h : w.Names e) : Counted w (entry im dir w e) [e] := by
  obtain ⟨inode, hlookup, htype⟩ := h
  have htarget : target im dir e w = follow im dir e inode w := by
    rw [target, hlookup]
  have hentry : entry im dir w e = target im dir e w := by
    unfold entry
    split
    · rw [Checker.adopt, if_pos (by rw [hlookup]; rfl)]
    · rfl
  rw [hentry, htarget]
  exact follow_counted htype

theorem entries_counted {entries : List DirEntry} (h : ∀ e ∈ entries, w.Names e) :
    Counted w (entries.foldl (entry im dir) w) entries := by
  induction entries generalizing w with
  | nil => exact Counted.refl w
  | cons e rest ih =>
    have hfirst : Counted w (entry im dir w e) [e] := entry_counted (h e List.mem_cons_self)
    refine hfirst.trans (ih fun f hf => ?_)
    obtain ⟨target, hlookup, htype⟩ := h f (List.mem_cons_of_mem _ hf)
    exact ⟨target, by rw [hfirst.usable, hlookup], htype⟩

/-! ## A visit -/

variable {inode : Inode} {extents : List Extent}

theorem tolerated_of_blocks (hformat : inode.format ≠ .local_) :
    tolerated inode = { types := [], parent := false } := by
  unfold tolerated
  split
  · next hlocal _ => exact absurd hlocal hformat
  · rfl

theorem visit_of_ok (hinode : w.usable.lookup dir = some inode)
    (hdir : inode.isDir = true) (hformat : inode.format ≠ .local_) {entries : List DirEntry}
    (hlist : listing im dir inode = .ok entries) :
    visit im w dir =
      entries.foldl (entry im dir) { w with checker := countDirectory w.checker } := by
  rw [visit, hinode]
  simp only [hdir, if_true, list, hlist, tolerated_of_blocks hformat, findTolerated,
    Bool.false_eq_true, if_false, List.foldl_nil]

theorem visit_of_error (hinode : w.usable.lookup dir = some inode)
    (hdir : inode.isDir = true) (hformat : inode.format ≠ .local_) {e : Error}
    (hlist : listing im dir inode = .error e) :
    ∃ f : Finding, (visit im w dir).checker.found = w.checker.found ++ [f] ∧
      f.code ∈ [Code.dirUnreadable, .checksum, .identity] := by
  rw [visit, hinode]
  simp only [hdir, if_true, list, hlist, tolerated_of_blocks hformat, findTolerated,
    Bool.false_eq_true, if_false, List.foldl_nil]
  unfold Checker.failed
  split
  all_goals exact ⟨_, rfl, by simp⟩

/-- The blocks of the directory are valid, and their entries name inodes in use. -/
structure Valid (im : Image) (w : Walk) (dir : ℕ) (extents : List Extent)
    (names : ℕ → List DirEntry) : Prop where
  reads : ∀ q, Mapped im.sb.toSuperblock extents q →
    Reads im.crc32c im.sb.toSuperblock im.device dir extents q (names q)
  names : ∀ q, Mapped im.sb.toSuperblock extents q → ∀ e ∈ ordinary (names q), w.Names e

/-- The visit faults nothing, and counts the entries of every block the map has. -/
def Lists (im : Image) (w : Walk) (dir : ℕ) (extents : List Extent) (names : ℕ → List DirEntry) :
    Prop :=
  ∃ blocks : List ℕ, blocks.Nodup ∧ (∀ q, q ∈ blocks ↔ Mapped im.sb.toSuperblock extents q) ∧
    Counted w (visit im w dir) (blocks.flatMap fun q => ordinary (names q))

/-- Whatever the blocks of the directory hold. -/
def ListsAll (im : Image) (w : Walk) (dir : ℕ) (extents : List Extent) : Prop :=
  ∀ (device : Device) (names : ℕ → List DirEntry), device.size = im.device.size →
    Valid { im with device := device } w dir extents names →
      Lists { im with device := device } w dir extents names

theorem listing_blocks (hformat : inode.format ≠ .local_)
    (hextents : dataExtents im dir inode = .ok extents) :
    listing im dir inode =
      (readDir im.crc32c im.sb.toSuperblock im.device dir extents).bind fun entries =>
        (everyDataBlockParses im.sb.toSuperblock im.device dir extents).map fun _ => entries := by
  rw [listing, if_neg hformat, hextents]
  rfl

theorem lists_of_whole {names : ℕ → List DirEntry}
    (hsb : im.sb.toSuperblock.Accepted) (hinode : w.usable.lookup dir = some inode)
    (hdir : inode.isDir = true) (hformat : inode.format ≠ .local_)
    (hextents : dataExtents im dir inode = .ok extents) (hsorted : Sorted extents)
    (hwhole : Whole im.sb.toSuperblock extents) (hvalid : Valid im w dir extents names) :
    Lists im w dir extents names := by
  have hbounds : ∀ e ∈ extents, im.sb.extentInBounds e.startblock e.blockcount = true := by
    simp only [dataExtents, bind_eq_ok, ensure_eq_ok, exists_and_left, exists_const, pure, Except.pure,
      Except.ok.injEq] at hextents
    obtain ⟨-, -, read, -, _, hcheck, rfl⟩ := hextents
    exact Filesystem.checkExtentsInBounds_ok hcheck
  have hlist : listing im dir inode =
      .ok ((dirBlocks im.sb.toSuperblock extents).flatMap fun q => ordinary (names q)) := by
    rw [listing_blocks hformat hextents,
      readDir_of_whole hsb hsorted hbounds hvalid.reads hwhole,
      everyDataBlockParses_of_whole hsb hsorted hbounds hvalid.reads hwhole]
    rfl
  refine ⟨dirBlocks im.sb.toSuperblock extents,
    (pairwise_dirBlocks hsb hsorted hwhole).imp ne_of_lt,
    fun q => mem_dirBlocks hsb hsorted hwhole, ?_⟩
  rw [visit_of_ok hinode hdir hformat hlist]
  have hcount := @entries_counted im dir { w with checker := countDirectory w.checker }
    ((dirBlocks im.sb.toSuperblock extents).flatMap fun q => ordinary (names q)) fun e he => by
      obtain ⟨q, hq, he⟩ := List.mem_flatMap.mp he
      exact hvalid.names q ((mem_dirBlocks hsb hsorted hwhole).mp hq) e he
  exact ⟨hcount.found, hcount.unlisted, hcount.usable, hcount.links⟩

theorem whole_of_lists
    (hcrc32c : ∀ bytes, im.crc32c bytes < 2 ^ 32) (hsb : im.sb.toSuperblock.Accepted)
    (hmeta : im.sb.metaUuid.length = 16) (hino : dir < 2 ^ 64)
    (hinode : w.usable.lookup dir = some inode) (hdir : inode.isDir = true)
    (hformat : inode.format ≠ .local_) (hextents : dataExtents im dir inode = .ok extents)
    (hlaid : Laid im.sb.toSuperblock im.device extents) (hlists : ListsAll im w dir extents) :
    Whole im.sb.toSuperblock extents := by
  by_contra hsplit
  set device := emptied im.crc32c im.sb.toSuperblock im.device dir extents with hdevice
  have hvalid : Valid { im with device := device } w dir extents fun _ => [] :=
    ⟨fun q hq => reads_emptied hcrc32c hsb hmeta hino hlaid hq, fun q _ e he => by cases he⟩
  obtain ⟨blocks, -, -, hcount⟩ := hlists device (fun _ => []) rfl hvalid
  have hread := @split_unreadable im.crc32c im.sb.toSuperblock im.device dir extents hsb hmeta hlaid
    hsplit
  obtain ⟨e, herror⟩ : ∃ e, listing { im with device := device } dir inode = .error e := by
    have hext : dataExtents { im with device := device } dir inode = .ok extents := hextents
    rw [listing_blocks hformat hext]
    cases hcase : readDir im.crc32c im.sb.toSuperblock device dir extents with
    | error e => exact ⟨e, rfl⟩
    | ok entries => exact absurd hcase (hread entries)
  obtain ⟨f, hfound, hcode⟩ := visit_of_error hinode hdir hformat herror
  obtain ⟨more, hmore, hcodes⟩ := hcount.found
  rw [hfound, List.append_cancel_left_eq] at hmore
  have htwice := hcodes f (hmore ▸ List.mem_singleton_self f)
  rw [htwice] at hcode
  exact absurd hcode (by decide)

/-- A directory is counted whatever its blocks hold, exactly when no extent of it starts inside a
directory block. -/
theorem visit_counted_iff {inode : Inode} {extents : List Extent}
    (hcrc32c : ∀ bytes, im.crc32c bytes < 2 ^ 32) (hsb : im.sb.toSuperblock.Accepted)
    (hmeta : im.sb.metaUuid.length = 16) (hino : dir < 2 ^ 64)
    (hinode : w.usable.lookup dir = some inode) (hdir : inode.isDir = true)
    (hformat : inode.format ≠ .local_) (hextents : dataExtents im dir inode = .ok extents)
    (hsorted : Sorted extents) :
    (Whole im.sb.toSuperblock extents → ListsAll im w dir extents) ∧
      (Laid im.sb.toSuperblock im.device extents → ListsAll im w dir extents →
        Whole im.sb.toSuperblock extents) := by
  refine ⟨fun hwhole device names _ hvalid => ?_, fun hlaid hlists => ?_⟩
  · exact lists_of_whole hsb hinode hdir hformat hextents hsorted hwhole hvalid
  · exact whole_of_lists hcrc32c hsb hmeta hino hinode hdir hformat hextents hlaid hlists

end

/-! ## A directory of two blocks -/

def wideSuperblock : WholeSuperblock :=
  { Superblock.wholeTwoGroups with dirblklog := 1 }

theorem wideSuperblock_accepted : wideSuperblock.toSuperblock.Accepted := by
  decide

def directoryOf (extents : List Extent) : Inode where
  mode := 0x41ed
  realtime := false
  format := .extents
  data := .ok (extents, [])
  attr := none
  shortForm := .error .notADirectory

def imageOf (crc32c : List UInt8 → ℕ) (device : Device) (extents : List Extent) : Image where
  sb := wideSuperblock
  crc32c := crc32c
  device := device
  inodes := [(64, .ok (directoryOf extents))]

def walkOf (im : Image) (extents : List Extent) : Walk :=
  Checker.startWalk im (Checker.start, [(64, directoryOf extents)])

def oneExtent : List Extent := [⟨0, 18, 2, false⟩]
def twoExtents : List Extent := [⟨0, 18, 1, false⟩, ⟨1, 20, 1, false⟩]

theorem zeroed_size_lt : 49152 < 2 ^ 64 := by decide

def zeroed : Device where
  size := 49152
  byte := fun _ => 0
  size_lt := zeroed_size_lt

theorem oneExtent_listsAll :
    ListsAll (imageOf (fun _ => 0) zeroed oneExtent)
      (walkOf (imageOf (fun _ => 0) zeroed oneExtent) oneExtent) 64 oneExtent :=
  (@visit_counted_iff (imageOf (fun _ => 0) zeroed oneExtent) 64
    (walkOf (imageOf (fun _ => 0) zeroed oneExtent) oneExtent) (directoryOf oneExtent) oneExtent
    (fun _ => Nat.two_pow_pos 32) wideSuperblock_accepted (by decide) (by decide) rfl (by decide)
    (by decide) rfl (by decide)).1 (by unfold Whole; decide)

theorem mapBlock_twoExtents {fb phys : ℕ} :
    mapBlock twoExtents fb = some phys ↔ fb = 0 ∧ phys = 18 ∨ fb = 1 ∧ phys = 20 := by
  rw [mapBlock_eq_some (by decide)]
  simp only [twoExtents, List.mem_cons, List.not_mem_nil, or_false, exists_eq_or_imp,
    exists_eq_left, Extent.endOffset, true_and]
  omega

theorem twoExtents_laid : Laid wideSuperblock.toSuperblock zeroed twoExtents where
  sorted := by decide
  bounds := by decide
  full := by
    rintro q ⟨fb, phys, rfl, -, hmap⟩ j hj
    have hper : perBlock wideSuperblock.toSuperblock = 2 := by decide
    rw [hper] at hj ⊢
    have hq : fb / 2 = 0 := by
      rcases mapBlock_twoExtents.mp hmap with ⟨rfl, -⟩ | ⟨rfl, -⟩
      all_goals rfl
    rw [hq]
    rcases Nat.lt_succ_iff_lt_or_eq.mp hj with hj | rfl
    · rw [Nat.lt_one_iff.mp hj]
      rfl
    · rfl
  apart := by
    intro fb fb' phys h h'
    rw [mapBlock_twoExtents] at h h'
    omega
  onDevice := by
    intro fb phys h
    rcases mapBlock_twoExtents.mp h with ⟨-, rfl⟩ | ⟨-, rfl⟩
    all_goals decide

theorem twoExtents_reported (crc32c : List UInt8 → ℕ) (hcrc32c : ∀ bytes, crc32c bytes < 2 ^ 32) :
    ∃ device : Device,
      Valid (imageOf crc32c device twoExtents) (walkOf (imageOf crc32c device twoExtents) twoExtents)
          64 twoExtents (fun _ => []) ∧
        ∃ f ∈ (visit (imageOf crc32c device twoExtents)
            (walkOf (imageOf crc32c device twoExtents) twoExtents) 64).checker.found,
          f.code ∈ [Code.dirUnreadable, .checksum, .identity] := by
  have hsb := wideSuperblock_accepted
  refine ⟨emptied crc32c wideSuperblock.toSuperblock zeroed 64 twoExtents,
    ⟨fun q hq => reads_emptied hcrc32c hsb (show wideSuperblock.metaUuid.length = 16 by decide)
      (by decide) twoExtents_laid hq,
      fun q _ e he => by cases he⟩, ?_⟩
  have hread := @split_unreadable crc32c wideSuperblock.toSuperblock zeroed 64 twoExtents hsb
    (by decide) twoExtents_laid (by unfold Whole; decide)
  set device := emptied crc32c wideSuperblock.toSuperblock zeroed 64 twoExtents
  obtain ⟨e, herror⟩ : ∃ e, listing (imageOf crc32c device twoExtents) 64 (directoryOf twoExtents) =
      .error e := by
    have hextents : dataExtents (imageOf crc32c device twoExtents) 64 (directoryOf twoExtents) =
        .ok twoExtents := by
      have hcheck : Filesystem.checkExtentsInBounds wideSuperblock.toSuperblock 64 twoExtents =
          .ok () := by decide
      exact bind_eq_ok.mpr ⟨(), rfl, bind_eq_ok.mpr ⟨(), rfl, bind_eq_ok.mpr ⟨_, rfl,
        bind_eq_ok.mpr ⟨(), hcheck, rfl⟩⟩⟩⟩
    rw [listing_blocks (by decide) hextents]
    cases hcase : readDir crc32c wideSuperblock.toSuperblock device 64 twoExtents with
    | error e => exact ⟨e, by rw [show (imageOf crc32c device twoExtents).crc32c = crc32c from rfl,
        show (imageOf crc32c device twoExtents).device = device from rfl,
        show (imageOf crc32c device twoExtents).sb = wideSuperblock from rfl, hcase]; rfl⟩
    | ok entries => exact absurd hcase (hread entries)
  obtain ⟨f, hfound, hcode⟩ := @visit_of_error (imageOf crc32c device twoExtents) 64
    (walkOf (imageOf crc32c device twoExtents) twoExtents) (directoryOf twoExtents) rfl (by decide)
    (by decide) e herror
  exact ⟨f, by rw [hfound]; exact List.mem_append_right _ (List.mem_singleton_self f), hcode⟩

/-- A directory of one valid, empty block in two extents is reported unreadable. -/
theorem twoExtents_unreadable :
    ∃ device : Device,
      Valid (imageOf (fun _ => 0) device twoExtents)
          (walkOf (imageOf (fun _ => 0) device twoExtents) twoExtents) 64 twoExtents (fun _ => []) ∧
        ∃ f ∈ (visit (imageOf (fun _ => 0) device twoExtents)
            (walkOf (imageOf (fun _ => 0) device twoExtents) twoExtents) 64).checker.found,
          f.code ∈ [Code.dirUnreadable, .checksum, .identity] :=
  twoExtents_reported (fun _ => 0) fun _ => Nat.two_pow_pos 32

end Walk

end FsXfs.Check
