import FsXfs.File.Exchange
import FsXfs.File.Editing

/-!
# Block maps laid out anew

What `mapDataFork` leaves: a fork that reads back as the list it was laid out from, and groups whose
free space has gained the old tree and lost the new one.
-/

namespace FsXfs.File

open FsXfs.Group

set_option autoImplicit false

/-! ## A fork laid out, read back -/

theorem checkRecords_ok {l : List Extent} {u : Unit} (h : checkRecords l = .ok u) :
    ∀ e ∈ l, e.startoff < 2 ^ 54 := by
  induction l with
  | nil => simp
  | cons e l ih =>
    obtain ⟨_, hone, h⟩ := bind_eq_ok.mp h
    obtain ⟨bytes, hbytes, -⟩ := bind_eq_ok.mp hone
    exact List.forall_mem_cons.mpr ⟨(Extent.toBytes_eq_ok.mp hbytes).1.1, ih h⟩

theorem length_le_of_sorted {l : List Extent} {m : ℕ} (h : Sorted l) (hm : ∀ e ∈ l, e.startoff < m) :
    l.length ≤ m := by
  obtain ⟨hpair, hpos⟩ := sorted_iff.mp h
  have hnodup : (l.map Extent.startoff).Nodup := by
    refine List.pairwise_map.mpr (hpair.imp_of_mem fun {a b} ha _ hab => ?_)
    have := hpos a ha
    unfold Extent.endOffset at hab
    omega
  have hsub : l.map Extent.startoff ⊆ List.range m := by
    intro n hn
    obtain ⟨e, he, rfl⟩ := List.mem_map.mp hn
    exact List.mem_range.mpr (hm e he)
  simpa using (List.subperm_of_subset hnodup hsub).length_le

/-- What `mapDataFork` makes of a list: the list itself, or a tree built from it. -/
structure LaidOut (sb : Superblock) (ino : ℕ) (inode : Inode) (extents : List Extent) (map : ForkMap) :
    Prop where
  fits : ∀ e ∈ extents, e.startoff < 2 ^ 54
  form : (map.format = .extents ∧ map.listed = extents ∧ map.images = []) ∨
    ∃ (b : Building) (fsblocks : List ℕ), inode.forkLen < extents.length * 16 ∧
      raiseTo ino extents.length (rootMax inode.forkLen) (blockMax sb) 8
        (leaves (blockMax sb) extents) = .ok b ∧
      fsblocks.length = b.built.length ∧ map.format = .btree ∧
      map.root = (b.height - 1, b.level.map fun i => fsblocks.getD i 0) ∧
      map.images = fsblocks.zip (b.built.map (Built.image fsblocks))

namespace Volume

theorem le_walkBudget {n k : ℕ} (hn : n ≤ 2 ^ 54) (hk : k ≤ 2 * n) : k ≤ walkBudget n := by
  unfold walkBudget
  rw [saturate64_of_lt (show n + 1 < 2 ^ 64 by omega),
    saturate64_of_lt (show (n + 1) * 2 < 2 ^ 64 by omega)]
  omega

variable {extents : List Extent}

theorem raiseTo_level_pos {ino n rootMax m : ℕ} {b : Building}
    (h : raiseTo ino n rootMax m 8 (leaves m extents) = .ok b) : 0 < rootMax := by
  have hkept := raiseTo_invariant (P := fun x => 0 < x.level.length)
    (fun x _ _ _ => by
      simp only [Building.raise, List.length_range', List.length_splitLengths, length_shares]
      omega) (le_refl 1) (show 1 ≤ 8 by decide) (show 8 < 8 + 1 by decide)
    (by
      simp only [leaves, List.length_range, List.length_splitLengths, length_shares]
      omega) h
  omega

theorem forkExtents_laid {w : Volume} {ino blocks : ℕ} {inode : Inode} {map : ForkMap}
    {reflink : Bool} (hsorted : Sorted extents) (hlaid : LaidOut w.sb ino inode extents map)
    (hread : ∀ p ∈ map.images, w.node ino p.1 = p.2.read w.sb) :
    w.forkExtents ino (ForkMap.inode map inode blocks extents.length reflink) = .ok extents := by
  rcases hlaid.form with ⟨hformat, hlisted, -⟩ | ⟨b, fsblocks, hlong, hraise, hlen, hformat, hroot,
    himages⟩
  · simp only [forkExtents, ForkMap.inode, hformat, hlisted, dif_pos hsorted]
    rfl
  · have hbs := w.accepted.geometry.blocksize_ge
    have hmax : 4 ≤ blockMax w.sb := by
      unfold blockMax
      omega
    have hback : ReadsBack w.sb (w.node ino) fsblocks b.built := by
      intro i block hi
      have hlt : i < b.built.length := (List.getElem?_eq_some_iff.mp hi).1
      have hmem : (fsblocks.getD i 0, block.image fsblocks) ∈ map.images := by
        rw [himages]
        refine List.mem_iff_getElem?.mpr ⟨i, ?_⟩
        rw [List.getElem?_zip_eq_some]
        refine ⟨?_, by rw [List.getElem?_map, hi]; rfl⟩
        rw [List.getD_eq_getElem?_getD, List.getElem?_eq_getElem (by omega)]
        rfl
      exact hread _ hmem
    obtain ⟨⟨parts, hparts, hflat, hsum⟩, -, -⟩ := raiseTo_stands (by omega) hsorted hraise hback
    have hsmall := raiseTo_small hmax (raiseTo_level_pos hraise)
      (List.ne_nil_of_length_pos (by omega)) hraise
    have hbudget := le_walkBudget (length_le_of_sorted hsorted hlaid.fits) hsmall
    obtain ⟨found, hwalk⟩ := walkFrom_denotes (v := w)
      (walkBudget extents.length - b.built.length) [] [] [] (List.forall₂_map_left_iff.mpr hparts)
    rw [hsum, Nat.sub_add_cancel hbudget, List.append_nil, List.nil_append, hflat, walkFrom] at hwalk
    have hdone : w.walkWithBlocks ino (ForkMap.inode map inode blocks extents.length reflink) =
        .ok (extents, found) := by
      refine bind_eq_ok.mpr ⟨map.root, rfl, ?_⟩
      rw [hroot]
      refine bind_eq_ok.mpr ⟨(extents, found), ?_, ?_⟩
      · exact hwalk
      · exact bind_eq_ok.mpr ⟨(), ensure_of rfl, rfl⟩
    simp only [forkExtents, ForkMap.inode, hformat]
    exact bind_eq_ok.mpr ⟨(extents, found), hdone, rfl⟩

/-! ## The blocks of the block maps -/

def Placed (sb : Superblock) (x : ℕ) : Prop :=
  ∃ agno agbno, x = packBlock sb agno agbno ∧ agno < sb.agcount ∧ agbno < sb.agblocks

theorem pack_splitFsblock {v : Volume} {x : ℕ} (h : Placed v.sb x) :
    (v.sb.splitFsblock x).1 < v.sb.agcount ∧ (v.sb.splitFsblock x).2 < v.sb.agblocks ∧
      packBlock v.sb (v.sb.splitFsblock x).1 (v.sb.splitFsblock x).2 = x := by
  obtain ⟨agno, agbno, rfl, hag, hb⟩ := h
  rw [splitFsblock_packBlock v.accepted hag hb]
  exact ⟨hag, hb, rfl⟩

def treeBlocks (v : Volume) (ino : ℕ) (inode : Inode) : List ℕ :=
  if inode.format = .btree then
    match v.walkWithBlocks ino inode with
    | .ok (_, blocks) => blocks
    | .error _ => []
  else []

section

variable {v : Volume} {given taken : List (ℕ × ℕ)} {groups groups' : Groups} {ino : ℕ}
  {inode : Inode}

section

variable (h : Edited v given taken groups) (hplaced : ∀ x ∈ v.treeBlocks ino inode, Placed v.sb x)
  (hnew : ∀ x ∈ v.treeBlocks ino inode, v.sb.splitFsblock x ∉ taken)

include h hplaced hnew

theorem giveOldTreeBack_edited {count : ℕ}
    (hgive : v.giveOldTreeBack ino inode groups = .ok (groups', count)) :
    Edited v (given ++ (v.treeBlocks ino inode).map v.sb.splitFsblock) taken groups' := by
  unfold giveOldTreeBack at hgive
  split at hgive
  next hformat =>
    obtain ⟨⟨extents, blocks⟩, hwalk, hgive⟩ := bind_eq_ok.mp hgive
    obtain ⟨mid, hback, hgive⟩ := bind_eq_ok.mp hgive
    obtain ⟨rfl, -⟩ := Prod.mk.inj (Except.ok.inj hgive)
    have htree : v.treeBlocks ino inode = blocks := by
      rw [treeBlocks, if_pos hformat, hwalk]
    rw [htree] at hplaced hnew ⊢
    refine giveTreeBack_edited h (fun x hx => ?_) hnew hback
    have hlt := (pack_splitFsblock (hplaced x hx)).2.1
    have hblocks := v.accepted.agblocks_lt
    omega
  next hformat =>
    obtain ⟨rfl, -⟩ := Prod.mk.inj (Except.ok.inj hgive)
    rw [treeBlocks, if_neg hformat, List.map_nil, List.append_nil]
    exact h

theorem mapDataFork_spec {map : ForkMap}
    (hmap : v.mapDataFork ino inode extents groups = .ok (map, groups')) :
    LaidOut v.sb ino inode extents map ∧
      ∃ bs : List ℕ, map.images.map Prod.fst = bs.map (packBlock v.sb (v.sb.splitIno ino).1) ∧
        bs.Nodup ∧
        (∀ b ∈ bs, (v.FreeAt (v.sb.splitIno ino).1 b ∨ ((v.sb.splitIno ino).1, b) ∈
          given ++ (v.treeBlocks ino inode).map v.sb.splitFsblock) ∧
          ((v.sb.splitIno ino).1, b) ∉ taken) ∧
        Edited v (given ++ (v.treeBlocks ino inode).map v.sb.splitFsblock)
          (taken ++ bs.map fun b => ((v.sb.splitIno ino).1, b)) groups' := by
  obtain ⟨⟨mid, count⟩, hgive, hmap⟩ := bind_eq_ok.mp hmap
  have hmid := giveOldTreeBack_edited h hplaced hnew hgive
  dsimp only at hmap
  split at hmap
  · obtain ⟨_, hrecords, hmap⟩ := bind_eq_ok.mp hmap
    cases hmap
    exact ⟨⟨checkRecords_ok hrecords, .inl ⟨rfl, rfl, rfl⟩⟩, [], rfl, .nil, by simp, by simpa using hmid⟩
  · next hlong =>
    obtain ⟨_, -, hmap⟩ := bind_eq_ok.mp hmap
    obtain ⟨b, hraise, hmap⟩ := bind_eq_ok.mp hmap
    obtain ⟨⟨groups1, fsblocks⟩, htake, hmap⟩ := bind_eq_ok.mp hmap
    obtain ⟨_, hrecords, hmap⟩ := bind_eq_ok.mp hmap
    cases hmap
    obtain ⟨bs, rfl, hlen, hnodup, hall, hedited⟩ := takeTree_edited hmid htake
    refine ⟨⟨checkRecords_ok hrecords, .inr ⟨b, _, by omega, hraise, ?_, rfl, rfl, rfl⟩⟩, bs, ?_,
      hnodup, hall, hedited⟩
    · rw [List.length_map, hlen]
    · exact List.map_fst_zip (by simp [hlen])

end

end

end Volume

end FsXfs.File
