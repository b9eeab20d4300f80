import FsXfs.File.Volume
import FsXfs.File.Mapping
import Mathlib.Data.List.SplitLengths

/-!
# Laying a block map out

`bmbt_write.rs`: a fork's extents listed in the inode where they fit, and in a tree built bottom up
where they do not, the tree it had given back first.
-/

namespace FsXfs.File

open FsXfs.Group

set_option autoImplicit false

/-! ## Blocks as they are written -/

inductive Image where
  | leaf (records : List Extent)
  | inner (below : ℕ) (pointers : List ℕ)

-- `XFS_BMBT_BLOCK_LEN` of the block is its header; a slot is sixteen bytes
def blockMax (sb : Superblock) : ℕ :=
  (sb.blocksize - 72) / 16

def rootMax (forkLen : ℕ) : ℕ :=
  (forkLen - 4) / 16

def Image.slots : Image → ℕ
  | .leaf records => records.length
  | .inner _ pointers => pointers.length

def Image.read (sb : Superblock) (image : Image) : Except Error Node := do
  ensure (image.slots ≤ blockMax sb)
    (.badSuperblock s!"a bmbt block claims {image.slots} records but has room for {blockMax sb}")
  match image with
  | .leaf records =>
    if sorted : Sorted records then .ok (.leaf records sorted)
    else .error (.badSuperblock "an extent starts before the previous extent's end")
  | .inner below pointers => .ok (.inner below pointers)

/-! ## The tree -/

structure Built where
  level : ℕ
  records : List Extent
  children : List ℕ

structure Building where
  built : List Built
  level : List ℕ
  height : ℕ

def leaves (blockMax : ℕ) (extents : List Extent) : Building :=
  let groups := (shares extents.length blockMax).splitLengths extents
  ⟨groups.map fun records => ⟨0, records, []⟩, List.range groups.length, 1⟩

def Building.raise (blockMax : ℕ) (b : Building) : Building :=
  let groups := (shares b.level.length blockMax).splitLengths b.level
  ⟨b.built ++ groups.map fun children => ⟨b.height, [], children⟩,
    List.range' b.built.length groups.length, b.height + 1⟩

-- levels are added until one fits the root; the eighth is refused
def raiseTo (ino extents rootMax blockMax : ℕ) : ℕ → Building → Except Error Building
  | 0, b => .ok b
  | fuel + 1, b =>
    if rootMax < b.level.length then do
      let b := b.raise blockMax
      ensure (b.height ≤ 8)
        (.unsupportedFeature s!"inode {ino}'s {extents} extents need a deeper block map than XFS allows")
      raiseTo ino extents rootMax blockMax fuel b
    else .ok b

def Built.image (fsblocks : List ℕ) (b : Built) : Image :=
  if b.level = 0 then .leaf b.records
  else .inner (b.level - 1) (b.children.map fun child => fsblocks.getD child 0)

/-! ## The layout -/

structure ForkMap where
  format : Format
  listed : List Extent
  root : ℕ × List ℕ
  treeBlocks : ℕ
  oldTreeBlocks : ℕ
  images : List (ℕ × Image)

namespace Volume

section

variable (v : Volume) (ino : ℕ)

def giveTreeBack (groups : Groups) (blocks : List ℕ) : Except Error Groups :=
  blocks.foldlM (fun groups fsblock => do
    let (agno, agblock) := v.sb.splitFsblock fsblock
    let group ← v.groupFor groups agno
    let group ← group.forgetRmap ⟨agblock, 1, owner ino, 2 ^ 62⟩
    let group ← group.giveBack ⟨agblock, 1⟩
    pure (groups.put agno group)) groups

def takeTree (agno : ℕ) : ℕ → Groups → Except Error (Groups × List ℕ)
  | 0, groups => .ok (groups, [])
  | n + 1, groups => do
    let group ← v.groupFor groups agno
    let (group, run) ← group.takeAligned v.crc32c v.sb v.device 1 1 (owner ino) (2 ^ 62)
    let (groups, rest) ← takeTree agno n (groups.put agno group)
    pure (groups, packBlock v.sb agno run.startblock :: rest)

def giveOldTreeBack (inode : Inode) (groups : Groups) : Except Error (Groups × ℕ) :=
  if inode.format = .btree then do
    let (_, blocks) ← v.walkWithBlocks ino inode
    let groups ← v.giveTreeBack ino groups blocks
    pure (groups, blocks.length)
  else pure (groups, 0)

def mapDataFork (inode : Inode) (extents : List Extent) (groups : Groups) :
    Except Error (ForkMap × Groups) := do
  let (groups, oldTreeBlocks) ← v.giveOldTreeBack ino inode groups
  if extents.length * 16 ≤ inode.forkLen then do
    checkRecords extents
    pure (⟨.extents, extents, (0, []), 0, oldTreeBlocks, []⟩, groups)
  else do
    ensure v.sb.isV5
      (.unsupportedFeature s!"inode {ino} needs a block-map B+tree, which this driver builds on v5 only")
    let b ← raiseTo ino extents.length (rootMax inode.forkLen) (blockMax v.sb) 8
      (leaves (blockMax v.sb) extents)
    let (agno, _, _) := v.sb.splitIno ino
    let (groups, fsblocks) ← v.takeTree ino agno b.built.length groups
    checkRecords extents
    let images := fsblocks.zip (b.built.map (Built.image fsblocks))
    pure (⟨.btree, [], (b.height - 1, b.level.map fun i => fsblocks.getD i 0), b.built.length,
      oldTreeBlocks, images⟩, groups)

end

end Volume

/-! ## Cutting a list up -/

section

variable {α β : Type}

variable {sizes : List ℕ} {xs : List α}

theorem forall₂_splitLengths {R : α → β → Prop} {ys : List β} (h : List.Forall₂ R xs ys) :
    List.Forall₂ (List.Forall₂ R) (sizes.splitLengths xs) (sizes.splitLengths ys) := by
  induction sizes generalizing xs ys with
  | nil => exact .nil
  | cons n sizes ih =>
    rw [List.splitLengths_cons, List.splitLengths_cons]
    exact .cons (List.forall₂_take n h) (ih (List.forall₂_drop n h))

end

theorem sum_shares (n m : ℕ) : (shares n m).sum = n := by
  have hcount : ∀ r d k : ℕ,
      ((List.range (r + d)).map fun i => k + if i < r then 1 else 0).sum = (r + d) * k + r := by
    intro r d k
    have hlow : (List.range r).map (fun i => k + if i < r then 1 else 0) =
        (List.range r).map fun _ => k + 1 :=
      List.map_congr_left fun i hi => by rw [if_pos (List.mem_range.mp hi)]
    rw [List.range_add, List.map_append, List.sum_append, hlow]
    simp [Function.comp_def, Nat.add_mul, Nat.mul_add, Nat.add_right_comm]
  have hpos : 0 < max (divCeil n m) 1 := by omega
  have hmod := Nat.mod_lt n hpos
  have hdiv := Nat.div_add_mod n (max (divCeil n m) 1)
  have hsum := hcount (n % max (divCeil n m) 1) (max (divCeil n m) 1 - n % max (divCeil n m) 1)
    (n / max (divCeil n m) 1)
  rw [Nat.add_sub_cancel' hmod.le, hdiv] at hsum
  exact hsum

variable {n : ℕ}

theorem le_of_mem_shares {m k : ℕ} (hm : 0 < m) (h : k ∈ shares n m) : k ≤ m := by
  obtain ⟨i, -, rfl⟩ := List.mem_map.mp h
  have hceil := le_divCeil_mul n hm
  have hle : n ≤ m * max (divCeil n m) 1 :=
    le_trans hceil (by rw [Nat.mul_comm]; exact Nat.mul_le_mul_left _ (by omega))
  generalize max (divCeil n m) 1 = g at *
  have hdiv := Nat.div_add_mod n g
  have hquot : n / g ≤ m := Nat.div_le_of_le_mul (by rwa [Nat.mul_comm] at hle)
  split
  · next hlt =>
    rcases Nat.lt_or_ge (n / g) m with hlt' | hge
    · omega
    · have heq : n / g = m := by omega
      rw [heq, Nat.mul_comm] at hdiv
      omega
  · omega

theorem length_le_of_mem_shares {α : Type} {xs ys : List α} {m : ℕ} (hm : 0 < m)
    (h : ys ∈ (shares n m).splitLengths xs) : ys.length ≤ m :=
  List.length_mem_splitLengths _ _ _ (fun _ => le_of_mem_shares hm) ys h

/-! ## What a tree holds -/

/-- The block `p` roots a subtree of a level, holding a list of extents in a number of blocks. -/
def Denotes (node : ℕ → Except Error Node) : ℕ → ℕ → List Extent × ℕ → Prop
  | 0, p, part => ∃ sorted, node p = .ok (.leaf part.1 sorted) ∧ part.2 = 1
  | level + 1, p, part => ∃ pointers parts, node p = .ok (.inner level pointers) ∧
      List.Forall₂ (fun q sub => Denotes node level q sub) pointers parts ∧
      part.1 = (parts.map Prod.fst).flatten ∧ part.2 = (parts.map Prod.snd).sum + 1

namespace Volume

section

variable {v : Volume} {ino : ℕ}

variable {fsblock : ℕ} (budget : ℕ) (stack : List (ℕ × ℕ)) (acc : List Extent) (blocks : List ℕ)

theorem walkFrom_leaf {records : List Extent} {sorted : Sorted records}
    (hnode : v.node ino fsblock = .ok (.leaf records sorted)) :
    v.walkFrom ino (budget + 1) ((fsblock, 0) :: stack) acc blocks =
      v.walkFrom ino budget stack (acc ++ records) (blocks ++ [fsblock]) := by
  rw [walkFrom, hnode]
  rfl

theorem walkFrom_inner {below : ℕ} {pointers : List ℕ}
    (hnode : v.node ino fsblock = .ok (.inner below pointers)) :
    v.walkFrom ino (budget + 1) ((fsblock, below + 1) :: stack) acc blocks =
      v.walkFrom ino budget (pointers.map (fun p => (p, below)) ++ stack) acc
        (blocks ++ [fsblock]) := by
  rw [walkFrom, hnode]
  simp only [bind, Except.bind, Node.level, ensure_of]

theorem walkFrom_denotes {level : ℕ} {pointers : List ℕ} {parts : List (List Extent × ℕ)}
    (h : List.Forall₂ (Denotes (v.node ino) level) pointers parts) :
    ∃ blocks', v.walkFrom ino (budget + (parts.map Prod.snd).sum)
        (pointers.map (fun p => (p, level)) ++ stack) acc blocks =
      v.walkFrom ino budget stack (acc ++ (parts.map Prod.fst).flatten) blocks' := by
  induction level generalizing budget pointers parts stack acc blocks with
  | zero =>
    induction h generalizing acc blocks with
    | nil => exact ⟨blocks, by simp⟩
    | @cons p part pointers parts hp hrest ih =>
      obtain ⟨sorted, hnode, hone⟩ := hp
      obtain ⟨blocks', hwalk⟩ := ih (acc ++ part.1) (blocks ++ [p])
      refine ⟨blocks', ?_⟩
      rw [List.map_cons, List.sum_cons, hone, List.map_cons, List.cons_append, List.map_cons,
        List.flatten_cons, ← List.append_assoc, ← hwalk, show budget + (1 + (parts.map Prod.snd).sum) =
          budget + (parts.map Prod.snd).sum + 1 by omega]
      exact walkFrom_leaf _ _ _ _ hnode
  | succ level ihlevel =>
    induction h generalizing acc blocks with
    | nil => exact ⟨blocks, by simp⟩
    | @cons p part pointers parts hp hrest ih =>
      obtain ⟨below, subs, hnode, hsubs, hextents, hsize⟩ := hp
      obtain ⟨mid, hbelow⟩ := ihlevel (budget + (parts.map Prod.snd).sum)
        (pointers.map (fun q => (q, level + 1)) ++ stack) acc (blocks ++ [p]) hsubs
      obtain ⟨blocks', hwalk⟩ := ih (acc ++ part.1) mid
      refine ⟨blocks', ?_⟩
      rw [List.map_cons, List.sum_cons, hsize, List.map_cons, List.cons_append, List.map_cons,
        List.flatten_cons, ← List.append_assoc, ← hwalk, hextents, ← hbelow,
        show budget + ((subs.map Prod.snd).sum + 1 + (parts.map Prod.snd).sum) =
          budget + (parts.map Prod.snd).sum + (subs.map Prod.snd).sum + 1 by omega]
      exact walkFrom_inner _ _ _ _ hnode

end

end Volume

/-! ## The tree built holds the list -/

theorem read_inner {sb : Superblock} {below : ℕ} {pointers : List ℕ}
    (hslots : pointers.length ≤ blockMax sb) :
    (Image.inner below pointers).read sb = .ok (.inner below pointers) :=
  bind_eq_ok.mpr ⟨(), ensure_of hslots, rfl⟩

theorem sorted_sublist {l l' : List Extent} (h : l'.Sublist l) (hl : Sorted l) : Sorted l' := by
  obtain ⟨hpair, hpos⟩ := sorted_iff.mp hl
  exact sorted_iff.mpr ⟨hpair.sublist h, fun e he => hpos e (h.subset he)⟩

section

variable {sb : Superblock} {node : ℕ → Except Error Node} {fsblocks : List ℕ}
  {extents : List Extent} {b b' : Building} {m : ℕ}

/-- The top level of a tree being built holds the extents, in as many blocks as were built. -/
def Stands (node : ℕ → Except Error Node) (fsblocks : List ℕ) (extents : List Extent)
    (b : Building) : Prop :=
  ∃ parts, List.Forall₂ (fun i part => Denotes node (b.height - 1) (fsblocks.getD i 0) part)
      b.level parts ∧
    (parts.map Prod.fst).flatten = extents ∧ (parts.map Prod.snd).sum = b.built.length

def ReadsBack (sb : Superblock) (node : ℕ → Except Error Node) (fsblocks : List ℕ)
    (built : List Built) : Prop :=
  ∀ i block, built[i]? = some block → node (fsblocks.getD i 0) = (block.image fsblocks).read sb

theorem ReadsBack.mono {built built' : List Built} (h : ReadsBack sb node fsblocks built')
    (hle : built <+: built') : ReadsBack sb node fsblocks built := by
  intro i block hi
  obtain ⟨rest, rfl⟩ := hle
  refine h i block ?_
  rw [List.getElem?_append_left (List.getElem?_eq_some_iff.mp hi).1]
  exact hi

theorem stands_leaves (hm : 0 < blockMax sb) (hsorted : Sorted extents)
    (hread : ReadsBack sb node fsblocks (leaves (blockMax sb) extents).built) :
    Stands node fsblocks extents (leaves (blockMax sb) extents) := by
  set groups := (shares extents.length (blockMax sb)).splitLengths extents with hgroups
  have hflat : groups.flatten = extents := List.flatten_splitLengths _ _ (sum_shares _ _).ge
  refine ⟨groups.map fun records => (records, 1), ?_, ?_, ?_⟩
  · refine List.forall₂_iff_get.mpr ⟨by simp [leaves, ← hgroups], fun i hi hi' => ?_⟩
    have hlt : i < groups.length := by simpa [leaves, ← hgroups] using hi
    have hmem : groups[i] ∈ groups := List.getElem_mem hlt
    have hslots : groups[i].length ≤ blockMax sb := length_le_of_mem_shares hm hmem
    have hsub := sorted_sublist (hflat ▸ List.sublist_flatten_of_mem hmem) hsorted
    refine ⟨by simpa using hsub, ?_, by simp⟩
    have hblock := hread i ⟨0, groups[i], []⟩ (by simp [leaves, ← hgroups, hlt])
    simp only [Built.image, if_true] at hblock
    have hleaf : (Image.leaf groups[i]).read sb = .ok (.leaf groups[i] hsub) :=
      bind_eq_ok.mpr ⟨(), ensure_of hslots, dif_pos hsub⟩
    rw [hleaf] at hblock
    simpa [leaves, ← hgroups] using hblock
  · simp [List.map_map, Function.comp_def, hflat]
  · simp [leaves, ← hgroups, List.map_map, Function.comp_def]

theorem stands_raise (hm : 0 < blockMax sb) (hheight : 1 ≤ b.height)
    (h : Stands node fsblocks extents b)
    (hread : ReadsBack sb node fsblocks (b.raise (blockMax sb)).built) :
    Stands node fsblocks extents (b.raise (blockMax sb)) := by
  obtain ⟨parts, hparts, hflat, hsum⟩ := h
  have hlen := hparts.length_eq
  set sizes := shares b.level.length (blockMax sb) with hsizes
  set groups := sizes.splitLengths b.level with hgroups
  set partGroups := sizes.splitLengths parts with hpartGroups
  have hall : List.Forall₂ (List.Forall₂ _) groups partGroups := forall₂_splitLengths hparts
  have hflatParts : partGroups.flatten = parts := List.flatten_splitLengths _ _ ((sum_shares _ _).trans hlen).ge
  refine ⟨partGroups.map fun subs => ((subs.map Prod.fst).flatten, (subs.map Prod.snd).sum + 1),
    ?_, ?_, ?_⟩
  · refine List.forall₂_iff_get.mpr ⟨by
      simp [Building.raise, ← hsizes, ← hgroups, hall.length_eq], fun j hj hj' => ?_⟩
    have hlt : j < groups.length := by simpa [Building.raise, ← hsizes, ← hgroups] using hj
    have hlt' : j < partGroups.length := hall.length_eq ▸ hlt
    have hslots : groups[j].length ≤ blockMax sb :=
      length_le_of_mem_shares hm (List.getElem_mem hlt)
    have hblock := hread (b.built.length + j) ⟨b.height, [], groups[j]⟩ (by
      simp [Building.raise, ← hsizes, ← hgroups, hlt])
    simp only [Built.image, if_neg (show b.height ≠ 0 by omega)] at hblock
    rw [read_inner (by rwa [List.length_map])] at hblock
    have hsubs := (List.forall₂_iff_get.mp hall).2 j hlt hlt'
    have hlevel : (b.raise (blockMax sb)).height - 1 = b.height - 1 + 1 := by
      simp only [Building.raise]
      omega
    rw [hlevel]
    refine ⟨groups[j].map fun child => fsblocks.getD child 0, partGroups[j], ?_, ?_, ?_, ?_⟩
    · simpa [Building.raise, ← hsizes, ← hgroups] using hblock
    · exact List.forall₂_map_left_iff.mpr hsubs
    · simp
    · simp
  · rw [← hflat, ← hflatParts]
    simp [List.map_map, Function.comp_def, List.flatten_flatten, List.map_flatten]
  · have hsumParts : (partGroups.map fun subs => (subs.map Prod.snd).sum + 1).sum =
        (parts.map Prod.snd).sum + partGroups.length := by
      rw [← hflatParts]
      generalize partGroups = gs
      induction gs with
      | nil => rfl
      | cons g gs ih =>
        rw [List.map_cons, List.sum_cons, ih, List.flatten_cons, List.map_append, List.sum_append,
          List.length_cons]
        omega
    rw [List.map_map]
    simp only [Function.comp_def]
    rw [hsumParts, hsum]
    simp [Building.raise, ← hsizes, ← hgroups, hall.length_eq]

variable {ino rootMax : ℕ}

theorem raiseTo_invariant {P : Building → Prop} {fuel : ℕ}
    (hstep : ∀ b, rootMax < b.level.length → 1 ≤ b.height → P b → P (b.raise m))
    (hheight : 1 ≤ b.height) (hlow : b.height ≤ 8) (hfuel : 8 < fuel + b.height) (hb : P b)
    (h : raiseTo ino n rootMax m fuel b = .ok b') :
    P b' ∧ 1 ≤ b'.height ∧ b'.level.length ≤ rootMax := by
  induction fuel generalizing b with
  | zero => exact absurd hfuel (by omega)
  | succ fuel ih =>
    unfold raiseTo at h
    split at h
    · next hlt =>
      obtain ⟨_, hnext, h⟩ := bind_eq_ok.mp h
      have hnext := ensure_eq_ok.mp hnext
      have hraised : (b.raise m).height = b.height + 1 := rfl
      exact ih (by omega) hnext (by omega) (hstep b hlt hheight hb) h
    · next hle =>
      cases h
      exact ⟨hb, hheight, by omega⟩

theorem built_raise_extends (b : Building) (m : ℕ) : b.built <+: (b.raise m).built :=
  List.prefix_append _ _

theorem raiseTo_extends {fuel : ℕ} (h : raiseTo ino n rootMax m fuel b = .ok b') :
    b.built <+: b'.built := by
  induction fuel generalizing b with
  | zero =>
    cases h
    exact List.prefix_rfl
  | succ fuel ih =>
    unfold raiseTo at h
    split at h
    · obtain ⟨_, -, h⟩ := bind_eq_ok.mp h
      exact (built_raise_extends b m).trans (ih h)
    · cases h
      exact List.prefix_rfl

theorem raiseTo_stands (hm : 0 < blockMax sb) (hsorted : Sorted extents)
    (h : raiseTo ino n rootMax (blockMax sb) 8 (leaves (blockMax sb) extents) = .ok b')
    (hread : ReadsBack sb node fsblocks b'.built) :
    Stands node fsblocks extents b' ∧ 1 ≤ b'.height ∧ b'.level.length ≤ rootMax := by
  have hfirst := stands_leaves hm hsorted (hread.mono (raiseTo_extends h))
  have hkept := raiseTo_invariant (P := fun x => x.built <+: b'.built → Stands node fsblocks extents x)
    (fun x _ hheight hx hle => stands_raise hm hheight (hx ((built_raise_extends x _).trans hle))
      (hread.mono hle)) (le_refl 1) (show 1 ≤ 8 by decide) (show 8 < 8 + 1 by decide)
    (fun _ => hfirst) h
  exact ⟨hkept.1 List.prefix_rfl, hkept.2⟩

theorem two_mul_shares_le {l : ℕ} (hm : 4 ≤ m) (hl : 2 ≤ l) : 2 * (shares l m).length ≤ l := by
  rw [length_shares]
  rcases Nat.lt_or_ge (divCeil l m) 2 with hlt | hge
  · omega
  · have hceil : divCeil l m * m ≤ l + m - 1 := Nat.div_mul_le_self _ _
    generalize divCeil l m = q at *
    obtain ⟨k, rfl⟩ : ∃ k, q = k + 1 := ⟨q - 1, by omega⟩
    rw [Nat.succ_mul] at hceil
    have hfour : k * 4 ≤ k * m := Nat.mul_le_mul_left k hm
    omega

theorem raiseTo_small (hm : 4 ≤ m) (hroot : 1 ≤ rootMax) (hne : extents ≠ [])
    (h : raiseTo ino n rootMax m 8 (leaves m extents) = .ok b') :
    b'.built.length ≤ 2 * extents.length := by
  have hpos : 0 < extents.length := List.length_pos_of_ne_nil hne
  have hleaves : (leaves m extents).level.length = (leaves m extents).built.length := by
    simp [leaves]
  have hfew : (leaves m extents).built.length ≤ extents.length := by
    simp only [leaves, List.length_map, List.length_splitLengths, length_shares]
    have hceil : divCeil extents.length m ≤ extents.length := by
      refine Nat.div_le_of_le_mul ?_
      have hsub : (m - 1) * 1 ≤ (m - 1) * extents.length := Nat.mul_le_mul_left _ hpos
      have hexp : m * extents.length = (m - 1) * extents.length + extents.length := by
        rw [← Nat.succ_mul]
        congr 1
        omega
      omega
    omega
  have hkept := raiseTo_invariant
    (P := fun x => x.built.length + x.level.length ≤ 2 * extents.length)
    (fun x hlt _ hx => by
      have htwo := two_mul_shares_le (m := m) hm (show 2 ≤ x.level.length by omega)
      simp only [Building.raise, List.length_append, List.length_map, List.length_splitLengths,
        List.length_range']
      omega) (le_refl 1) (show 1 ≤ 8 by decide) (show 8 < 8 + 1 by decide) (by omega) h
  omega

end

end FsXfs.File
