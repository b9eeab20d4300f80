import FsXfs.File.Bounds
import FsXfs.Inode.Chunk

/-!
# The order of a fork's extents

`parse_list` refuses a list whose records are out of order or overlap, and reads each leaf of a block
map through it. `walk_with_blocks` puts the leaves one after another as their pointers come, and
compares nothing from one leaf to the next.
-/

namespace FsXfs

open Bytes File

set_option autoImplicit false

/-! ## A list of records -/

def parseRecords (buf : List UInt8) : ℕ → ℕ → ℕ → Except Error (List Extent)
  | 0, _, _ => .ok []
  | count + 1, i, previousEnd => do
    let e ← Extent.parse (buf.drop (i * extentRecordSize))
    ensure (previousEnd ≤ e.startoff)
      (.badSuperblock s!"extent {i} starts at file block {e.startoff} but the previous extent ran to {previousEnd}")
    let rest ← parseRecords buf count (i + 1) e.endOffset
    pure (e :: rest)

def parseList (buf : List UInt8) (count : ℕ) : Except Error (List Extent) := do
  ensure (count * extentRecordSize < 2 ^ 64) (.badSuperblock "extent count overflows")
  ensure (count * extentRecordSize ≤ buf.length)
    (.badSuperblock s!"fork holds {buf.length} bytes, too few for {count} extents")
  parseRecords buf count 0 0

variable {buf : List UInt8} {extents : List Extent}

theorem Extent.parse_pos {e : Extent} (h : Extent.parse buf = .ok e) :
    0 < e.blockcount := by
  simp only [parse, bind_eq_ok, ensure_eq_ok, exists_and_left, exists_const] at h
  obtain ⟨-, hpos, h⟩ := h
  rw [← Except.ok.inj h]
  exact Nat.pos_of_ne_zero hpos

theorem parseRecords_sorted {count i previousEnd : ℕ}
    (h : parseRecords buf count i previousEnd = .ok extents) :
    Sorted extents ∧ ∀ e ∈ extents, previousEnd ≤ e.startoff := by
  induction count generalizing i previousEnd extents with
  | zero =>
    rw [← Except.ok.inj h]
    exact ⟨trivial, fun e he => absurd he List.not_mem_nil⟩
  | succ count ih =>
    simp only [parseRecords, bind_eq_ok, ensure_eq_ok, exists_and_left, exists_const] at h
    obtain ⟨e, hparse, hle, rest, hrest, h⟩ := h
    rw [← Except.ok.inj h]
    obtain ⟨hsorted, hafter⟩ := ih hrest
    obtain ⟨hpair, hpos⟩ := sorted_iff.mp hsorted
    refine ⟨sorted_iff.mpr ⟨List.pairwise_cons.mpr ⟨hafter, hpair⟩, fun f hf => ?_⟩, fun f hf => ?_⟩
    · rcases List.mem_cons.mp hf with rfl | hf
      · exact Extent.parse_pos hparse
      · exact hpos f hf
    · rcases List.mem_cons.mp hf with rfl | hf
      · exact hle
      · exact le_trans hle (le_trans (Nat.le_add_right _ _) (hafter f hf))

theorem parseList_sorted {count : ℕ} (h : parseList buf count = .ok extents) : Sorted extents := by
  simp only [parseList, bind_eq_ok, ensure_eq_ok, exists_and_left, exists_const] at h
  exact (parseRecords_sorted h.2.2).1

namespace File

def Inode.withFork (inode : Inode) (fork : List UInt8) : Inode :=
  { inode with listed :=
      match h : parseList fork inode.nextents with
      | .ok extents => .ok ⟨extents, parseList_sorted h⟩
      | .error e => .error e }

namespace Volume

/-! ## The leaves of a block map -/

/-- The records of each leaf under a block, in the order of the pointers that lead there. -/
def leavesUnder (v : Volume) (ino : ℕ) : ℕ → ℕ → List (List Extent)
  | 0, fsblock =>
    match v.node ino fsblock with
    | .ok (.leaf records _) => [records]
    | _ => []
  | below + 1, fsblock =>
    match v.node ino fsblock with
    | .ok (.inner _ pointers) => pointers.flatMap (v.leavesUnder ino below)
    | _ => []

/-- No extent of a leaf reaches past where an extent of a later leaf starts. -/
def LeavesInOrder (v : Volume) (ino : ℕ) (inode : Inode) : Prop :=
  ∀ below pointers, inode.root = .ok (below, pointers) →
    (pointers.flatMap (v.leavesUnder ino below)).Pairwise fun l l' =>
      ∀ e ∈ l, ∀ f ∈ l', e.endOffset ≤ f.startoff

section

variable {v : Volume} {ino : ℕ}

theorem leavesUnder_sorted {level fsblock : ℕ} :
    ∀ l ∈ v.leavesUnder ino level fsblock, Sorted l := by
  induction level generalizing fsblock with
  | zero =>
    intro l hl
    unfold leavesUnder at hl
    split at hl
    · next records sorted hnode =>
      rw [List.mem_singleton.mp hl]
      exact sorted
    · exact absurd hl List.not_mem_nil
  | succ below ih =>
    intro l hl
    unfold leavesUnder at hl
    split at hl
    · obtain ⟨p, -, hl⟩ := List.mem_flatMap.mp hl
      exact ih l hl
    · exact absurd hl List.not_mem_nil

theorem walkFrom_leaves {budget : ℕ} {stack : List (ℕ × ℕ)} {before : List Extent}
    {blocks blocks' : List ℕ}
    (h : walkFrom v ino budget stack before blocks = .ok (extents, blocks')) :
    extents = before ++ (stack.flatMap fun p => v.leavesUnder ino p.2 p.1).flatten := by
  have hnil : ∀ {n : ℕ} {l : List Extent} {bs : List ℕ},
      walkFrom v ino n [] l bs = .ok (extents, blocks') → extents = l := by
    intro n l bs h
    rw [walkFrom] at h
    exact (congrArg Prod.fst (Except.ok.inj h)).symm
  induction budget generalizing stack before blocks with
  | zero =>
    cases stack with
    | nil => simpa using hnil h
    | cons p stack => cases h
  | succ budget ih =>
    cases stack with
    | nil => simpa using hnil h
    | cons p stack =>
      obtain ⟨fsblock, level⟩ := p
      simp only [walkFrom, bind_eq_ok, ensure_eq_ok, exists_and_left, exists_const] at h
      obtain ⟨node, hnode, rfl, h⟩ := h
      rw [List.flatMap_cons, List.flatten_append]
      cases node with
      | leaf records sorted =>
        rw [ih h, Node.level, leavesUnder, hnode]
        simp
      | inner below pointers =>
        rw [ih h, Node.level, leavesUnder, hnode]
        simp [List.flatMap_append, List.flatMap_map]

/-- The extents read are in order, and the binary search finds the one that holds a block. -/
def Searchable (extents : List Extent) : Prop :=
  (extents.Pairwise fun e f => e.startoff < f.startoff ∧ e.endOffset ≤ f.startoff) ∧
    ∀ off e, lookup extents off = some e ↔ e ∈ extents ∧ e.contains off = true

theorem searchable_iff (hpos : ∀ e ∈ extents, 0 < e.blockcount) :
    Searchable extents ↔ Sorted extents := by
  refine ⟨fun h => sorted_iff.mpr ⟨h.1.imp And.right, hpos⟩, fun h => ⟨?_, fun off e =>
    lookup_eq_some_iff h⟩⟩
  refine (sorted_iff.mp h).1.imp_of_mem fun {e f} he hf hle => ⟨?_, hle⟩
  have := hpos e he
  unfold Extent.endOffset at hle
  omega

theorem flatten_sorted_iff {leaves : List (List Extent)} (h : ∀ l ∈ leaves, Sorted l) :
    Sorted leaves.flatten ↔
      leaves.Pairwise fun l l' => ∀ e ∈ l, ∀ f ∈ l', e.endOffset ≤ f.startoff := by
  rw [sorted_iff, List.pairwise_flatten]
  refine ⟨fun hall => hall.1.2, fun hcross => ⟨⟨fun l hl => (sorted_iff.mp (h l hl)).1, hcross⟩,
    fun e he => ?_⟩⟩
  obtain ⟨l, hl, he⟩ := List.mem_flatten.mp he
  exact (sorted_iff.mp (h l hl)).2 e he

theorem walkWithBlocks_leaves {inode : Inode} {blocks : List ℕ}
    (h : v.walkWithBlocks ino inode = .ok (extents, blocks)) :
    ∃ below pointers, inode.root = .ok (below, pointers) ∧
      extents = (pointers.flatMap (v.leavesUnder ino below)).flatten := by
  simp only [walkWithBlocks, bind_eq_ok, ensure_eq_ok] at h
  obtain ⟨⟨below, pointers⟩, hroot, ⟨walked, visited⟩, hwalk, -, -, h⟩ := h
  refine ⟨below, pointers, hroot, ?_⟩
  have hextents : walked = extents := congrArg Prod.fst (Except.ok.inj h)
  rw [← hextents, walkFrom_leaves hwalk]
  simp [List.flatMap_map]

theorem forkExtents_searchable_iff {inode : Inode} {fork : List UInt8} {extents : List Extent}
    (h : v.forkExtents ino (inode.withFork fork) = .ok extents) :
    Searchable extents ↔ (inode.format = .btree → v.LeavesInOrder ino inode) := by
  have hformat : (inode.withFork fork).format = inode.format := rfl
  unfold forkExtents at h
  rw [hformat] at h
  split at h
  · next hlist =>
    obtain ⟨listed, -, h⟩ := bind_eq_ok.mp h
    rw [← Except.ok.inj h, hlist, searchable_iff (sorted_iff.mp listed.property).2]
    exact ⟨fun _ htree => (by cases htree), fun _ => listed.property⟩
  · next htree =>
    obtain ⟨⟨walked, visited⟩, hwalk, h⟩ := bind_eq_ok.mp h
    obtain ⟨below, pointers, hroot, hleaves⟩ := walkWithBlocks_leaves hwalk
    have hsorted : ∀ l ∈ pointers.flatMap (v.leavesUnder ino below), Sorted l := by
      intro l hl
      obtain ⟨p, -, hl⟩ := List.mem_flatMap.mp hl
      exact leavesUnder_sorted l hl
    have hpos : ∀ e ∈ extents, 0 < e.blockcount := by
      rw [← Except.ok.inj h, hleaves]
      intro e he
      obtain ⟨l, hl, he⟩ := List.mem_flatten.mp he
      exact (sorted_iff.mp (hsorted l hl)).2 e he
    rw [searchable_iff hpos, ← Except.ok.inj h, hleaves, flatten_sorted_iff hsorted]
    refine ⟨fun hcross _ below' pointers' hroot' => ?_, fun hcross => hcross htree _ _ hroot⟩
    obtain ⟨rfl, rfl⟩ := Prod.ext_iff.mp (Except.ok.inj (hroot.symm.trans hroot'))
    exact hcross
  · cases h

end

/-! ### Two leaves -/

def twoLeaves : Volume :=
  { calmVolume with
    node := fun _ fsblock =>
      if fsblock = 20 then .ok (.leaf [⟨10, 60, 1, false⟩] (by decide))
      else .ok (.leaf [⟨0, 61, 1, false⟩] (by decide)) }

theorem twoLeaves_searchable :
    twoLeaves.forkExtents 131 ((treeFile 8192 2 (0, [21, 20])).withFork []) =
        .ok [⟨0, 61, 1, false⟩, ⟨10, 60, 1, false⟩] ∧
      Searchable [⟨0, 61, 1, false⟩, ⟨10, 60, 1, false⟩] := by
  refine ⟨rfl, (@forkExtents_searchable_iff twoLeaves 131 (treeFile 8192 2 (0, [21, 20])) [] _
    rfl).mpr fun _ below pointers hroot => ?_⟩
  obtain ⟨rfl, rfl⟩ := Prod.ext_iff.mp (Except.ok.inj hroot)
  decide

/-- The root's pointers lead to the later leaf first: both are read, and a search for block 0 finds
nothing. -/
theorem later_leaf_first :
    twoLeaves.forkExtents 131 ((treeFile 8192 2 (0, [20, 21])).withFork []) =
        .ok [⟨10, 60, 1, false⟩, ⟨0, 61, 1, false⟩] ∧
      lookup [⟨10, 60, 1, false⟩, ⟨0, 61, 1, false⟩] 0 = none ∧
      ¬Searchable [⟨10, 60, 1, false⟩, ⟨0, 61, 1, false⟩] :=
  ⟨rfl, by decide, fun h => absurd h.1 (by decide)⟩

end Volume

end File

end FsXfs
