import FsXfs.Directory.Whole

/-!
# Directory blocks split over extents

The walks over extents step by whole directory blocks from wherever an extent starts. An extent that
starts inside a directory block is the second half of one that is split, and what the walk reads
there is no block of the directory.
-/

namespace FsXfs.Directory

open Bytes Quota Names File

set_option autoImplicit false

theorem mapM_eq_ok_map {α β : Type} {f : α → Except Error β} {g : α → β} {as : List α}
    (h : ∀ a ∈ as, f a = .ok (g a)) : as.mapM f = .ok (as.map g) := by
  induction as with
  | nil => rfl
  | cons a as ih =>
    rw [List.mapM_cons, h a List.mem_cons_self, ih fun b hb => h b (List.mem_cons_of_mem _ hb)]
    rfl

/-! ## The blocks of a directory -/

section

variable (crc32c : List UInt8 → ℕ) (sb : Superblock) (device : Device) (ino : ℕ)
  (extents : List Extent)

/-- Some of the directory block is mapped, in the part that holds entries. -/
def Mapped (dirBlock : ℕ) : Prop :=
  ∃ fileBlock phys, fileBlock / perBlock sb = dirBlock ∧ fileBlock < dataBlockLimit sb ∧
    mapBlock extents fileBlock = some phys

/-- The block, put together through the map, is a data block with these entries. -/
def Reads (dirBlock : ℕ) (entries : List DirEntry) : Prop :=
  ∃ out, readDirBlock crc32c sb device ino extents dirBlock = .ok (some out) ∧
    parseDataBlock sb out = .ok entries

/-- No extent starts inside a directory block. -/
def Whole : Prop :=
  ∀ e ∈ extents, dataExtent sb e = true → e.startoff % perBlock sb = 0

def dirBlocks : List ℕ :=
  (extents.filter (dataExtent sb)).flatMap fun e =>
    (steps e.startoff (min e.endOffset (dataBlockLimit sb)) (perBlock sb)).map (· / perBlock sb)

end

section

variable {crc32c : List UInt8 → ℕ} {sb : Superblock} {device : Device} {ino : ℕ}
  {extents : List Extent}

variable {last fileBlock : ℕ} {e : Extent}

theorem mem_steps {start step x : ℕ} (hstep : 0 < step) :
    x ∈ steps start last step ↔ ∃ k, x = start + k * step ∧ x < last := by
  have hcount : ∀ k, k < divCeil (last - start) step ↔ start + k * step < last := fun k => by
    rw [divCeil, Nat.lt_div_iff_mul_lt hstep]
    omega
  simp only [steps, List.mem_map, List.mem_range, hcount]
  constructor
  · rintro ⟨k, hk, rfl⟩
    exact ⟨k, rfl, hk⟩
  · rintro ⟨k, rfl, hk⟩
    exact ⟨k, hk, rfl⟩

theorem pairwise_steps {start step : ℕ} :
    (steps start last step).Pairwise fun a b => a + step ≤ b := by
  rw [steps, List.pairwise_map]
  refine List.pairwise_lt_range.imp fun {a b} hab => ?_
  have hle : (a + 1) * step ≤ b * step := Nat.mul_le_mul_right step hab
  rw [Nat.succ_mul] at hle
  omega

theorem dataExtent_iff :
    dataExtent sb e = true ↔ e.startoff < dataBlockLimit sb ∧ e.unwritten = false := by
  simp [dataExtent]

theorem below_eq (hsorted : Sorted extents) :
    ((extents.takeWhile fun e => decide (e.startoff < dataBlockLimit sb)).filter fun e =>
      !e.unwritten) = extents.filter (dataExtent sb) := by
  obtain ⟨hpair, hpos⟩ := sorted_iff.mp hsorted
  clear hsorted
  induction extents with
  | nil => rfl
  | cons e extents ih =>
    obtain ⟨hhead, htail⟩ := List.pairwise_cons.mp hpair
    have hrest := ih htail fun f hf => hpos f (List.mem_cons_of_mem _ hf)
    by_cases hlow : e.startoff < dataBlockLimit sb
    · rw [List.takeWhile_cons_of_pos (by simpa using hlow), List.filter_cons, List.filter_cons, hrest,
        dataExtent, decide_eq_true hlow, Bool.true_and]
    · rw [List.takeWhile_cons_of_neg (by simpa using hlow), List.filter_nil, eq_comm,
        List.filter_eq_nil_iff]
      intro f hf hdata
      have hflow := (dataExtent_iff.mp hdata).1
      rcases List.mem_cons.mp hf with rfl | hf
      · exact hlow hflow
      · have hle := hhead f hf
        unfold Extent.endOffset at hle
        omega

theorem whole_block (hsb : sb.Accepted) (hsorted : Sorted extents) (hwhole : Whole sb extents)
    (he : e ∈ extents) (haligned : fileBlock % perBlock sb = 0) (hlo : e.startoff ≤ fileBlock)
    (hhi : fileBlock < min e.endOffset (dataBlockLimit sb))
    (hmapped : ∀ j < perBlock sb, (mapBlock extents (fileBlock + j)).isSome = true) :
    fileBlock + perBlock sb ≤ e.endOffset := by
  by_contra hshort
  have hlimit := perBlock_dvd_limit hsb
  obtain ⟨hin, hbelow⟩ := Nat.lt_min.mp hhi
  -- the first block past the extent is in the same directory block, so another extent starts there
  obtain ⟨phys, hphys⟩ := Option.isSome_iff_exists.mp
    (hmapped (e.endOffset - fileBlock) (by omega))
  obtain ⟨f, hf, hwritten, hflo, hfhi, -⟩ := (mapBlock_eq_some hsorted).mp hphys
  have hne : e ≠ f := by
    rintro rfl
    omega
  have hstart : f.startoff = e.endOffset := by
    have hclear := (apart_of_sorted hsorted).apart.forall he hf hne
    unfold Clear at hclear
    omega
  obtain ⟨m, hm⟩ := hlimit
  obtain ⟨k, rfl⟩ := Nat.dvd_of_mod_eq_zero haligned
  have hnext : perBlock sb * k + perBlock sb ≤ dataBlockLimit sb := by
    rw [hm] at hbelow ⊢
    exact Nat.mul_le_mul_left _ (Nat.lt_of_mul_lt_mul_left hbelow)
  have hmod := hwhole f hf (dataExtent_iff.mpr ⟨by omega, hwritten⟩)
  rw [hstart] at hmod
  obtain ⟨n, hn⟩ := Nat.dvd_of_mod_eq_zero hmod
  rw [hn] at hin hshort
  rw [← Nat.mul_succ] at hshort
  have h1 := Nat.lt_of_mul_lt_mul_left hin
  have h2 := Nat.lt_of_mul_lt_mul_left (Nat.lt_of_not_le hshort)
  omega

theorem places_aligned (hsb : sb.Accepted) (hstart : e.startoff % perBlock sb = 0)
    (hmem : fileBlock ∈ steps e.startoff last (perBlock sb)) :
    fileBlock % perBlock sb = 0 ∧ e.startoff ≤ fileBlock ∧ fileBlock < last := by
  obtain ⟨k, rfl, hlt⟩ := (mem_steps (perBlock_pos hsb)).mp hmem
  exact ⟨by rw [Nat.add_mul_mod_self_right, hstart], Nat.le_add_right _ _, hlt⟩

variable {names : ℕ → List DirEntry}

section

variable (hsb : sb.Accepted) (hsorted : Sorted extents)
  (hbounds : ∀ e ∈ extents, sb.extentInBounds e.startblock e.blockcount = true)
  (hreads : ∀ q, Mapped sb extents q → Reads crc32c sb device ino extents q (names q))
  (hwhole : Whole sb extents)

include hsb hsorted hbounds hreads hwhole

theorem read_of_whole (he : e ∈ extents) (hdata : dataExtent sb e = true)
    (hmem : fileBlock ∈ steps e.startoff (min e.endOffset (dataBlockLimit sb)) (perBlock sb)) :
    ∃ out, device.readAt (sb.fsblockOffset (e.startblock + (fileBlock - e.startoff)))
        sb.dirblocksize = .ok out ∧
      parseDataBlock sb out = .ok (names (fileBlock / perBlock sb)) ∧
      verifyDirBlock crc32c sb ino out (e.startblock + (fileBlock - e.startoff)) = .ok () := by
  obtain ⟨haligned, hlo, hhi⟩ := places_aligned hsb (hwhole e he hdata) hmem
  have hwritten := (dataExtent_iff.mp hdata).2
  have hblock : fileBlock / perBlock sb * perBlock sb = fileBlock :=
    Nat.div_mul_cancel (Nat.dvd_of_mod_eq_zero haligned)
  have hmap := mapBlock_of_mem hsorted he hwritten hlo (Nat.lt_min.mp hhi).1
  obtain ⟨out, hread, hparse⟩ := hreads (fileBlock / perBlock sb)
    ⟨fileBlock, _, rfl, (Nat.lt_min.mp hhi).2, hmap⟩
  obtain ⟨hpieces, hverify⟩ := readDirBlock_eq_some.mp hread
  rw [hblock] at hpieces hverify
  have hend := whole_block hsb hsorted hwhole he haligned hlo hhi fun j hj => by
    obtain ⟨phys, hphys, -⟩ := (readPieces_eq_some.mp hpieces).1 j hj
    rw [hphys]
    rfl
  rw [hmap] at hverify
  exact ⟨out, readAt_of_whole hsb hsorted he hwritten (hbounds e he) hlo hend hpieces, hparse, hverify⟩

theorem readDir_of_whole :
    readDir crc32c sb device ino extents =
      .ok ((dirBlocks sb extents).flatMap fun q => ordinary (names q)) := by
  have hlist : ∀ p ∈ (extents.filter (dataExtent sb)).flatMap (places sb),
      listBlock crc32c sb device ino p.1 p.2 = .ok (ordinary (names (p.2 / perBlock sb))) := by
    intro p hp
    obtain ⟨e, he, hp⟩ := List.mem_flatMap.mp hp
    obtain ⟨fileBlock, hmem, rfl⟩ := List.mem_map.mp hp
    obtain ⟨he, hdata⟩ := List.mem_filter.mp he
    obtain ⟨-, hlo, hhi⟩ := places_aligned hsb (hwhole e he hdata) hmem
    obtain ⟨out, hread, hparse, hverify⟩ :=
      read_of_whole hsb hsorted hbounds hreads hwhole he hdata hmem
    have hin : e.contains fileBlock = true :=
      Extent.contains_iff.mpr ⟨hlo, (Nat.lt_min.mp hhi).1⟩
    simp only [listBlock, Extent.map, hin, if_true, orElse, hread, parsed, hparse, hverify, bind,
      Except.bind]
    rfl
  rw [readDir, below_eq hsorted, mapM_eq_ok_map hlist]
  simp only [bind, Except.bind, pure, Except.pure, Except.ok.injEq]
  rw [← List.flatMap_def, dirBlocks, List.flatMap_assoc, List.flatMap_assoc]
  refine List.flatMap_congr fun e _ => ?_
  rw [places, List.flatMap_map, List.flatMap_map]

theorem everyDataBlockParses_of_whole : everyDataBlockParses sb device ino extents = .ok () := by
  have hparses : ∀ p ∈ (extents.filter (dataExtent sb)).flatMap (parsePlaces sb),
      blockParses sb device ino p.1 p.2 = .ok () := by
    intro p hp
    obtain ⟨e, he, hp⟩ := List.mem_flatMap.mp hp
    obtain ⟨fileBlock, hmem, rfl⟩ := List.mem_map.mp hp
    obtain ⟨he, hdata⟩ := List.mem_filter.mp he
    rw [hwhole e he hdata, Nat.sub_zero] at hmem
    obtain ⟨-, hlo, hhi⟩ := places_aligned hsb (hwhole e he hdata) hmem
    obtain ⟨out, hread, hparse, -⟩ :=
      read_of_whole hsb hsorted hbounds hreads hwhole he hdata hmem
    have hin : e.contains fileBlock = true :=
      Extent.contains_iff.mpr ⟨hlo, (Nat.lt_min.mp hhi).1⟩
    simp only [blockParses, Nat.max_eq_left hlo, Extent.map, hin, if_true, hread, parsed, hparse, bind,
      Except.bind]
    rfl
  rw [everyDataBlockParses, mapM_eq_ok_map hparses]
  rfl

end

/-! ## Each block once -/

theorem mem_dirBlocks (hsb : sb.Accepted) (hsorted : Sorted extents) (hwhole : Whole sb extents)
    {dirBlock : ℕ} : dirBlock ∈ dirBlocks sb extents ↔ Mapped sb extents dirBlock := by
  have hpos := perBlock_pos hsb
  constructor
  · intro h
    obtain ⟨e, he, h⟩ := List.mem_flatMap.mp h
    obtain ⟨fileBlock, hmem, rfl⟩ := List.mem_map.mp h
    obtain ⟨he, hdata⟩ := List.mem_filter.mp he
    obtain ⟨-, hlo, hhi⟩ := places_aligned hsb (hwhole e he hdata) hmem
    obtain ⟨hend, hlimit⟩ := Nat.lt_min.mp hhi
    exact ⟨fileBlock, _, rfl, hlimit,
      mapBlock_of_mem hsorted he (dataExtent_iff.mp hdata).2 hlo hend⟩
  · rintro ⟨fileBlock, phys, rfl, hlimit, hmap⟩
    obtain ⟨e, he, hwritten, hlo, hhi, -⟩ := (mapBlock_eq_some hsorted).mp hmap
    have hdata : dataExtent sb e = true := dataExtent_iff.mpr ⟨by omega, hwritten⟩
    obtain ⟨k, hk⟩ := Nat.dvd_of_mod_eq_zero (hwhole e he hdata)
    refine List.mem_flatMap.mpr ⟨e, List.mem_filter.mpr ⟨he, hdata⟩, List.mem_map.mpr
      ⟨fileBlock / perBlock sb * perBlock sb, (mem_steps hpos).mpr ⟨fileBlock / perBlock sb - k, ?_, ?_⟩,
        Nat.mul_div_cancel _ hpos⟩⟩
    · have hle : k ≤ fileBlock / perBlock sb := (Nat.le_div_iff_mul_le hpos).mpr (by
        rw [Nat.mul_comm, ← hk]
        exact hlo)
      rw [hk, Nat.mul_comm _ k, ← Nat.add_mul, Nat.add_sub_cancel' hle]
    · exact lt_of_le_of_lt (Nat.div_mul_le_self _ _) (Nat.lt_min.mpr ⟨hhi, hlimit⟩)

theorem pairwise_dirBlocks (hsb : sb.Accepted) (hsorted : Sorted extents)
    (hwhole : Whole sb extents) : (dirBlocks sb extents).Pairwise (· < ·) := by
  have hpos := perBlock_pos hsb
  obtain ⟨hpair, -⟩ := sorted_iff.mp hsorted
  have hlt : ∀ {a b : ℕ}, a < b → b % perBlock sb = 0 → a / perBlock sb < b / perBlock sb := by
    intro a b hab hb
    rw [Nat.div_lt_iff_lt_mul hpos, Nat.div_mul_cancel (Nat.dvd_of_mod_eq_zero hb)]
    exact hab
  rw [dirBlocks, List.pairwise_flatMap]
  constructor
  · intro e he
    obtain ⟨he, hdata⟩ := List.mem_filter.mp he
    rw [List.pairwise_map]
    refine pairwise_steps.imp_of_mem fun {a b} _ hb hab => ?_
    exact hlt (by omega) (places_aligned hsb (hwhole e he hdata) hb).1
  · refine (hpair.sublist List.filter_sublist).imp_of_mem fun {e f} he hf hef => ?_
    obtain ⟨he, hdatae⟩ := List.mem_filter.mp he
    obtain ⟨hf, hdataf⟩ := List.mem_filter.mp hf
    intro q hq r hr
    obtain ⟨a, ha, rfl⟩ := List.mem_map.mp hq
    obtain ⟨b, hb, rfl⟩ := List.mem_map.mp hr
    obtain ⟨-, -, hahi⟩ := places_aligned hsb (hwhole e he hdatae) ha
    obtain ⟨hbmod, hblo, -⟩ := places_aligned hsb (hwhole f hf hdataf) hb
    exact hlt (by have := (Nat.lt_min.mp hahi).1; omega) hbmod

end

/-! ## A directory of empty blocks -/

section

variable (crc32c : List UInt8 → ℕ) (sb : Superblock) (device : Device) (ino : ℕ)
  (extents : List Extent)

def fileBlocks : List ℕ :=
  extents.flatMap fun e => (List.range e.blockcount).map (e.startoff + ·)

def blockAddress (fileBlock : ℕ) : ℕ :=
  sb.fsblockOffset ((mapBlock extents fileBlock).getD 0)

def holding (address : ℕ) : Option ℕ :=
  (fileBlocks extents).find? fun fb =>
    (mapBlock extents fb).isSome && decide (fb < dataBlockLimit sb) &&
      decide (blockAddress sb extents fb ≤ address) &&
      decide (address < blockAddress sb extents fb + sb.blocksize)

def emptyAt (dirBlock : ℕ) : List UInt8 :=
  emptyBlock crc32c sb (blockAddress sb extents (dirBlock * perBlock sb) / 512) ino

/-- The device with every directory block of the map an empty one. -/
def emptied : Device where
  size := device.size
  byte := fun address =>
    match holding sb extents address with
    | none => device.byte address
    | some fb => (emptyAt crc32c sb ino extents (fb / perBlock sb)).getD
        (fb % perBlock sb * sb.blocksize + (address - blockAddress sb extents fb)) 0
  size_lt := device.size_lt

/-- A map whose directory blocks are all there, each in blocks of its own. -/
structure Laid : Prop where
  sorted : Sorted extents
  bounds : ∀ e ∈ extents, sb.extentInBounds e.startblock e.blockcount = true
  full : ∀ q, Mapped sb extents q → ∀ j < perBlock sb,
    (mapBlock extents (q * perBlock sb + j)).isSome = true
  apart : ∀ fb fb' phys, mapBlock extents fb = some phys → mapBlock extents fb' = some phys → fb = fb'
  onDevice : ∀ fb phys, mapBlock extents fb = some phys →
    sb.fsblockOffset phys + sb.blocksize ≤ device.size

end

section

variable {crc32c : List UInt8 → ℕ} {sb : Superblock} {device : Device} {ino : ℕ}
  {extents : List Extent}

variable {fb phys q : ℕ}

theorem mem_fileBlocks (hsorted : Sorted extents) (h : mapBlock extents fb = some phys) :
    fb ∈ fileBlocks extents := by
  obtain ⟨e, he, -, hlo, hhi, -⟩ := (mapBlock_eq_some hsorted).mp h
  refine List.mem_flatMap.mpr ⟨e, he, List.mem_map.mpr ⟨fb - e.startoff, ?_, by omega⟩⟩
  rw [List.mem_range]
  unfold Extent.endOffset at hhi
  omega

section

variable (hsb : sb.Accepted) (hlaid : Laid sb device extents)

include hsb hlaid

theorem phys_unique {fb' phys' a : ℕ} (h : mapBlock extents fb = some phys)
    (h' : mapBlock extents fb' = some phys') (hlo : sb.fsblockOffset phys ≤ a)
    (hhi : a < sb.fsblockOffset phys + sb.blocksize) (hlo' : sb.fsblockOffset phys' ≤ a)
    (hhi' : a < sb.fsblockOffset phys' + sb.blocksize) :
    phys = phys' := by
  have hsize := device.size_lt
  have hplace : ∀ {fb phys}, mapBlock extents fb = some phys →
      sb.fsblockOffset phys = (phys / 2 ^ sb.agblklog * sb.agblocks + phys % 2 ^ sb.agblklog) *
        sb.blocksize ∧ phys % 2 ^ sb.agblklog < sb.agblocks := by
    intro fb phys hmap
    obtain ⟨e, he, -, hlo, hhi, rfl⟩ := (mapBlock_eq_some hlaid.sorted).mp hmap
    obtain ⟨-, hag, hsame⟩ := Superblock.extentInBounds_spec (hlaid.bounds e he)
    obtain ⟨hdiv, -, hlen⟩ := hsame (fb - e.startoff) (by unfold Extent.endOffset at hhi; omega)
    have hend := hlaid.onDevice _ _ hmap
    refine ⟨Superblock.fsblockOffset_eq hsb (hdiv ▸ hag) (by omega),
      lt_of_lt_of_le hlen ?_⟩
    exact Nat.min_le_right _ _
  obtain ⟨hoff, hb⟩ := hplace h
  obtain ⟨hoff', hb'⟩ := hplace h'
  have hnumber : ∀ {n}, n * sb.blocksize ≤ a → a < n * sb.blocksize + sb.blocksize →
      a / sb.blocksize = n := fun hle hlt =>
    Nat.div_eq_of_lt_le hle (by rw [Nat.succ_mul]; exact hlt)
  have heq := (hnumber (hoff ▸ hlo) (hoff ▸ hhi)).symm.trans (hnumber (hoff' ▸ hlo') (hoff' ▸ hhi'))
  have hag : phys / 2 ^ sb.agblklog = phys' / 2 ^ sb.agblklog := by
    have hq := (mul_add_div_mod (phys / 2 ^ sb.agblklog) hb).1
    rw [heq] at hq
    exact hq.symm.trans (mul_add_div_mod _ hb').1
  have h0 := Nat.div_add_mod phys (2 ^ sb.agblklog)
  have h1 := Nat.div_add_mod phys' (2 ^ sb.agblklog)
  rw [hag] at heq h0
  omega

theorem holding_eq {k : ℕ} (hmap : mapBlock extents fb = some phys)
    (hlimit : fb < dataBlockLimit sb) (hk : k < sb.blocksize) :
    holding sb extents (sb.fsblockOffset phys + k) = some fb := by
  have hat : blockAddress sb extents fb = sb.fsblockOffset phys := by
    rw [blockAddress, hmap, Option.getD_some]
  cases hfind : holding sb extents (sb.fsblockOffset phys + k) with
  | none =>
    have hnot := List.find?_eq_none.mp hfind fb (mem_fileBlocks hlaid.sorted hmap)
    refine absurd ?_ hnot
    simp only [hmap, hat, Option.isSome_some, Bool.true_and, Bool.and_eq_true, decide_eq_true_eq]
    omega
  | some fb' =>
    have hfound := List.find?_some hfind
    simp only [Bool.and_eq_true, decide_eq_true_eq] at hfound
    obtain ⟨⟨⟨hsome, -⟩, hlo⟩, hhi⟩ := hfound
    obtain ⟨phys', hmap'⟩ := Option.isSome_iff_exists.mp hsome
    rw [blockAddress, hmap', Option.getD_some] at hlo hhi
    have hsame := phys_unique hsb hlaid hmap hmap' (Nat.le_add_right _ k) (by omega) hlo hhi
    rw [hlaid.apart fb fb' phys hmap (hsame ▸ hmap')]

theorem emptied_byte {k : ℕ} (hmap : mapBlock extents fb = some phys)
    (hlimit : fb < dataBlockLimit sb) (hk : k < sb.blocksize) :
    (emptied crc32c sb device ino extents).byte (sb.fsblockOffset phys + k) =
      (emptyAt crc32c sb ino extents (fb / perBlock sb)).getD
        (fb % perBlock sb * sb.blocksize + k) 0 := by
  have hat : blockAddress sb extents fb = sb.fsblockOffset phys := by
    rw [blockAddress, hmap, Option.getD_some]
  simp only [emptied, holding_eq hsb hlaid hmap hlimit hk, hat, Nat.add_sub_cancel_left]

end

theorem emptyAt_length (hsb : sb.Accepted) (hmeta : sb.metaUuid.length = 16) (dirBlock : ℕ) :
    (emptyAt crc32c sb ino extents dirBlock).length = perBlock sb * sb.blocksize := by
  rw [emptyAt, emptyBlock_length hsb hmeta, perBlock_mul hsb]

theorem lt_limit_of_mapped (hsb : sb.Accepted) {j : ℕ} (hq : Mapped sb extents q)
    (hj : j < perBlock sb) : q * perBlock sb + j < dataBlockLimit sb := by
  obtain ⟨fb, -, rfl, hlimit, -⟩ := hq
  obtain ⟨m, hm⟩ := perBlock_dvd_limit hsb
  rw [hm] at hlimit ⊢
  have hlt : fb / perBlock sb < m := Nat.div_lt_of_lt_mul hlimit
  have hle : (fb / perBlock sb + 1) * perBlock sb ≤ m * perBlock sb := Nat.mul_le_mul_right _ hlt
  rw [Nat.succ_mul, Nat.mul_comm m] at hle
  omega

theorem readPieces_emptied (hsb : sb.Accepted) (hmeta : sb.metaUuid.length = 16)
    (hlaid : Laid sb device extents) (hq : Mapped sb extents q) :
    readPieces sb (emptied crc32c sb device ino extents) extents (q * perBlock sb) (perBlock sb) =
      .ok (some (emptyAt crc32c sb ino extents q)) := by
  have hbs : 0 < sb.blocksize := Nat.lt_of_lt_of_le (by decide) hsb.geometry.blocksize_ge
  refine readPieces_eq_some.mpr ⟨fun j hj => ?_, ?_⟩
  · obtain ⟨phys, hphys⟩ := Option.isSome_iff_exists.mp (hlaid.full q hq j hj)
    exact ⟨phys, hphys, hlaid.onDevice _ _ hphys⟩
  · refine List.ext_getElem? fun k => ?_
    have hlen : ∀ j < perBlock sb, (blockRun sb (emptied crc32c sb device ino extents) extents
        (q * perBlock sb + j)).length = sb.blocksize := fun j _ => run_length _ _ _
    rw [getElem?_flatMap_range hbs hlen]
    by_cases hk : k < perBlock sb * sb.blocksize
    · have hj : k / sb.blocksize < perBlock sb := Nat.div_lt_of_lt_mul (by rwa [Nat.mul_comm])
      have hmod := Nat.mod_lt k hbs
      obtain ⟨phys, hphys⟩ := Option.isSome_iff_exists.mp (hlaid.full q hq _ hj)
      obtain ⟨hblock, hwithin⟩ := mul_add_div_mod q hj
      have hin : k < (emptyAt crc32c sb ino extents q).length := by rwa [emptyAt_length hsb hmeta]
      rw [if_pos hk, blockRun, hphys, Option.getD_some, getElem?_run, if_pos hmod,
        emptied_byte hsb hlaid hphys (lt_limit_of_mapped hsb hq hj) hmod, hblock, hwithin,
        Nat.div_add_mod', List.getD_eq_getElem?_getD, List.getElem?_eq_getElem hin, Option.getD_some]
    · rw [if_neg hk, List.getElem?_eq_none (by rw [emptyAt_length hsb hmeta]; omega)]

theorem reads_emptied (hcrc32c : ∀ bytes, crc32c bytes < 2 ^ 32) (hsb : sb.Accepted)
    (hmeta : sb.metaUuid.length = 16) (hino : ino < 2 ^ 64) (hlaid : Laid sb device extents)
    (hq : Mapped sb extents q) :
    Reads crc32c sb (emptied crc32c sb device ino extents) ino extents q [] := by
  refine ⟨emptyAt crc32c sb ino extents q, readDirBlock_eq_some.mpr
    ⟨readPieces_emptied hsb hmeta hlaid hq, ?_⟩, parseDataBlock_emptyBlock hsb hmeta⟩
  obtain ⟨phys, hphys⟩ := Option.isSome_iff_exists.mp (hlaid.full q hq 0 (perBlock_pos hsb))
  rw [Nat.add_zero] at hphys
  have hend := hlaid.onDevice _ _ hphys
  have hsize := device.size_lt
  have hat : blockAddress sb extents (q * perBlock sb) = sb.fsblockOffset phys := by
    rw [blockAddress, hphys, Option.getD_some]
  rw [hphys, verifiedAt, verifyDirBlock]
  split
  · next hv5 =>
    have hmagic : beAt (emptyAt crc32c sb ino extents q) 0 4 = xfsDir3DataMagic := by
      rw [emptyAt, emptyBlock_magic hsb hmeta, if_pos hv5]
    simp only [hmagic, blknoOfFsbno]
    rw [if_pos (by decide), emptyAt, hat]
    exact verifyDataBlock_emptyBlock hcrc32c hsb hmeta (by omega) hino
  · rfl

/-! ## The second half of a split block -/

theorem parseDataBlock_magic {buf : List UInt8} {entries : List DirEntry}
    (h : parseDataBlock sb buf = .ok entries) : beAt buf 0 4 ≠ 0 := by
  intro hzero
  simp only [parseDataBlock, readDataMagic, bind_eq_ok, ensure_eq_ok, pure, Except.pure,
    Except.ok.injEq] at h
  obtain ⟨magic, ⟨_, -, _, -, rfl⟩, h⟩ := h
  rw [hzero, if_neg (by decide)] at h
  obtain ⟨_, -, h⟩ := bind_eq_ok.mp h
  obtain ⟨hdr, hhdr, -⟩ := bind_eq_ok.mp h
  cases hhdr

theorem emptyBlock_zero (hsb : sb.Accepted) (hmeta : sb.metaUuid.length = 16) {daddr at_ : ℕ}
    (hlo : 512 ≤ at_) (hhi : at_ + 6 ≤ sb.dirblocksize) :
    slice (emptyBlock crc32c sb daddr ino) at_ 4 = List.replicate 4 0 := by
  rw [slice_emptyBlock hsb hmeta (.inr (by omega)), emptyBody,
    slice_putAll_of_apart (emptyFields_within hsb hmeta)]
  · rw [slice, List.drop_replicate, List.take_replicate]
    congr 1
    omega
  · rcases emptyHdrSize_cases sb with ⟨hv5, hhdr⟩ | ⟨hv5, hhdr⟩
    all_goals
      simp only [spans, emptyFields, hv5, hhdr, if_true, Bool.false_eq_true, if_false,
        List.cons_append, List.nil_append, List.map_cons, List.map_nil, beBytes_length, hmeta,
        List.forall_mem_cons, List.not_mem_nil, IsEmpty.forall_iff, implies_true, and_true,
        Bytes.Apart]
      omega

theorem split_unreadable (hsb : sb.Accepted) (hmeta : sb.metaUuid.length = 16)
    (hlaid : Laid sb device extents) (hsplit : ¬Whole sb extents) (entries : List DirEntry) :
    readDir crc32c sb (emptied crc32c sb device ino extents) ino extents ≠ .ok entries := by
  intro hread
  simp only [Whole, not_forall] at hsplit
  obtain ⟨e, he, hdata, hstray⟩ := hsplit
  obtain ⟨hlimit, hwritten⟩ := dataExtent_iff.mp hdata
  have hpos := perBlock_pos hsb
  have hbs := hsb.geometry.blocksize_ge
  have hcount : 0 < e.blockcount := (apart_of_sorted hlaid.sorted).pos e he
  have hend : e.startoff < e.endOffset := by
    unfold Extent.endOffset
    omega
  rw [readDir, below_eq hlaid.sorted] at hread
  obtain ⟨lists, hlists, -⟩ := bind_eq_ok.mp hread
  have hplace : (e, e.startoff) ∈ (extents.filter (dataExtent sb)).flatMap (places sb) := by
    refine List.mem_flatMap.mpr ⟨e, List.mem_filter.mpr ⟨he, hdata⟩, List.mem_map.mpr
      ⟨e.startoff, (mem_steps hpos).mpr ⟨0, by omega, Nat.lt_min.mpr ⟨hend, hlimit⟩⟩, rfl⟩⟩
  obtain ⟨_, -, hlist⟩ := ok_of_mapM_eq_ok hlists hplace
  have hmap := mapBlock_of_mem hlaid.sorted he hwritten le_rfl hend
  simp only [listBlock, bind_eq_ok, orElse_eq_ok, readAt_eq_ok] at hlist
  obtain ⟨phys, hphys, block, ⟨-, rfl⟩, got, hgot, -⟩ := hlist
  obtain rfl : phys = e.startblock + (e.startoff - e.startoff) := (Extent.map_eq_some.mp hphys).2
  have hparse : ∃ got, parseDataBlock sb
      (run (emptied crc32c sb device ino extents)
        (sb.fsblockOffset (e.startblock + (e.startoff - e.startoff))) sb.dirblocksize) = .ok got := by
    unfold parsed at hgot
    split at hgot
    · next hok => exact ⟨_, hok⟩
    · cases hgot
  obtain ⟨got', hparse⟩ := hparse
  refine parseDataBlock_magic hparse ?_
  have hwithin : e.startoff % perBlock sb < perBlock sb := Nat.mod_lt _ hpos
  have hfirst : 1 * sb.blocksize ≤ e.startoff % perBlock sb * sb.blocksize :=
    Nat.mul_le_mul_right _ (Nat.pos_of_ne_zero hstray)
  have hlast : (e.startoff % perBlock sb + 1) * sb.blocksize ≤ perBlock sb * sb.blocksize :=
    Nat.mul_le_mul_right _ hwithin
  rw [perBlock_mul hsb, Nat.succ_mul] at hlast
  have hslice : slice (run (emptied crc32c sb device ino extents)
      (sb.fsblockOffset (e.startblock + (e.startoff - e.startoff))) sb.dirblocksize) 0 4 =
      slice (emptyAt crc32c sb ino extents (e.startoff / perBlock sb))
        (e.startoff % perBlock sb * sb.blocksize) 4 := by
    refine List.ext_getElem? fun k => ?_
    rw [getElem?_slice, getElem?_slice]
    by_cases hk : k < 4
    · have hin : e.startoff % perBlock sb * sb.blocksize + k <
          (emptyAt crc32c sb ino extents (e.startoff / perBlock sb)).length := by
        rw [emptyAt_length hsb hmeta, perBlock_mul hsb]
        omega
      rw [if_pos hk, if_pos hk, Nat.zero_add, getElem?_run, if_pos (by omega),
        emptied_byte hsb hlaid hmap hlimit (by omega), List.getD_eq_getElem?_getD,
        List.getElem?_eq_getElem hin, Option.getD_some]
    · rw [if_neg hk, if_neg hk]
  rw [beAt, hslice, emptyAt, emptyBlock_zero hsb hmeta (by omega) (by omega)]
  decide

end

end FsXfs.Directory
