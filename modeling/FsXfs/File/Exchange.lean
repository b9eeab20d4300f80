import FsXfs.File.BlockMap
import FsXfs.File.WriteAlloc

/-!
# Exchanging ranges of two files

`exchange.rs`: the extents mapping a range of one file move, offsets shifted, into the other file's
list, and the other way round. No data block is read or written.
-/

namespace FsXfs.File

open FsXfs.Group

set_option autoImplicit false

/-! ## Editing the lists -/

def piece (e : Extent) (from_ to_ : ℕ) : Extent :=
  ⟨from_, e.startblock + (from_ - e.startoff), to_ - from_, e.unwritten⟩

def inside (first end_ : ℕ) (e : Extent) : List Extent :=
  if max e.startoff first < min e.endOffset end_ then
    [piece e (max e.startoff first) (min e.endOffset end_)]
  else []

def outside (first end_ : ℕ) (e : Extent) : List Extent :=
  (if e.startoff < first then [piece e e.startoff (min e.endOffset first)] else []) ++
    if end_ < e.endOffset then [piece e (max e.startoff end_) e.endOffset] else []

def cut (extents : List Extent) (first n : ℕ) : List Extent × List Extent :=
  (extents.flatMap (inside first (first + n)), extents.flatMap (outside first (first + n)))

def shiftOne (from_ to_ : ℕ) (e : Extent) : Extent :=
  { e with startoff := e.startoff - from_ + to_ }

def shifted (pieces : List Extent) (from_ to_ : ℕ) : List Extent :=
  pieces.map (shiftOne from_ to_)

def continues (last e : Extent) : Bool :=
  decide (last.unwritten = e.unwritten) && decide (last.endOffset = e.startoff) &&
    decide (last.startblock + last.blockcount = e.startblock) &&
    decide (last.blockcount + e.blockcount ≤ maxExtentBlocks)

def joinFrom : Extent → List Extent → List Extent
  | last, [] => [last]
  | last, e :: rest =>
    if continues last e then
      joinFrom { last with blockcount := last.blockcount + e.blockcount } rest
    else last :: joinFrom e rest

def joined (extents : List Extent) : List Extent :=
  match extents.insertionSort byStart with
  | [] => []
  | e :: rest => joinFrom e rest

def blocksIn (extents : List Extent) : ℕ :=
  (extents.map Extent.blockcount).sum

/-! ## The exchange -/

structure Exchanged where
  mapA : ForkMap
  mapB : ForkMap
  newA : List Extent
  newB : List Extent
  blocksA : ℕ
  blocksB : ℕ
  -- both files carry the reflink flag when either did
  reflink : Bool
  groups : Groups

namespace Volume

section

variable (v : Volume)

def rmapOf (e : Extent) (ino : ℕ) : Except Error (ℕ × Rmap) := do
  ensure (e.blockcount < 2 ^ 32) (.unsupportedFeature "an extent longer than a group")
  let (agno, agblock) := v.sb.splitFsblock e.startblock
  pure (agno, ⟨agblock, e.blockcount, owner ino, rmapOffset e⟩)

def movesOf (pieces : List Extent) (from_ to_ ino taker : ℕ) :
    Except Error (List ((ℕ × Rmap) × (ℕ × Rmap))) :=
  pieces.mapM fun e => do
    let old ← v.rmapOf e ino
    let new ← v.rmapOf (shiftOne from_ to_ e) taker
    pure (old, new)

def editAt (edit : GroupAlloc → Rmap → Except Error GroupAlloc) (groups : Groups)
    (record : ℕ × Rmap) : Except Error Groups := do
  let group ← v.groupFor groups record.1
  let group ← edit group record.2
  pure (groups.put record.1 group)

def moveRmaps (inA inB : List Extent) (a b fa fb : ℕ) : Except Error Groups :=
  if v.sb.hasRmapbt then do
    let movesA ← v.movesOf inA fa fb a b
    let movesB ← v.movesOf inB fb fa b a
    let moves := movesA ++ movesB
    let groups ← (moves.map Prod.fst).foldlM (v.editAt GroupAlloc.forgetRmap) []
    (moves.map Prod.snd).foldlM (v.editAt GroupAlloc.rememberMovedRmap) groups
  else pure []

def held (ino : ℕ) (inode : Inode) (map : ForkMap) (gave took : ℕ) : Except Error ℕ := do
  ensure (gave + map.oldTreeBlocks ≤ inode.nblocks)
    (.badSuperblock s!"inode {ino} counts {inode.nblocks} blocks, fewer than the {gave} it maps in the range and the {map.oldTreeBlocks} of its block map")
  pure (wrap64 (inode.nblocks - (gave + map.oldTreeBlocks) + took + map.treeBlocks))

def refuseUnexchangeable (ino : ℕ) (inode : Inode) : Except Error Unit := do
  ensure inode.regular .notAFile
  ensure (inode.realtime = false)
    (.unsupportedFeature s!"inode {ino} keeps its data on the real-time device")
  ensure (inode.format = .extents ∨ inode.format = .btree)
    (.unsupportedFeature s!"inode {ino} stores its data inside the inode")

def checkRange (ino : ℕ) (inode : Inode) (first n : ℕ) : Except Error Unit := do
  refuseUnexchangeable ino inode
  ensure (first + n ≤ divCeil inode.size v.sb.blocksize)
    (.unsupportedFeature s!"inode {ino}: blocks {first}..{first + n} run past its {inode.size} bytes")

def countFits (inode : Inode) (list : List Extent) : Except Error Unit :=
  ensure (inode.nrext64 ∨ list.length < 2 ^ 32)
    (.unsupportedFeature s!"{list.length} extents overflow the 32-bit count")

def exchangeRange (a aOffset b bOffset length : ℕ) : Except Error Exchanged := do
  v.writable
  ensure v.sb.isV5
    (.unsupportedFeature "an exchange writes v5 metadata; a v4 filesystem is not supported")
  ensure v.exchrange
    (.unsupportedFeature "this volume does not have the exchange-range feature (exchrange), which an exchange needs, as it does in the kernel")
  ensure (a ≠ b) (.unsupportedFeature s!"inode {a} cannot exchange a range with itself")
  let bs := v.sb.blocksize
  ensure (length ≠ 0) (.unsupportedFeature "an exchange of no bytes changes nothing")
  ensure (bs ∣ aOffset ∧ bs ∣ bOffset ∧ bs ∣ length)
    (.unsupportedFeature s!"an exchange moves whole blocks of {bs} bytes; {length} bytes at {aOffset} and {bOffset} are not")
  let (fa, fb, n) := (aOffset / bs, bOffset / bs, length / bs)
  let ia ← v.inode a
  let ib ← v.inode b
  v.checkRange a ia fa n
  v.checkRange b ib fb n
  let oldA ← v.dataExtents a ia
  let oldB ← v.dataExtents b ib
  let (inA, outA) := cut oldA fa n
  let (inB, outB) := cut oldB fb n
  let newA := joined (outA ++ shifted inB fb fa)
  let newB := joined (outB ++ shifted inA fa fb)
  let groups ← v.moveRmaps inA inB a b fa fb
  let (mapA, groups) ← v.mapDataFork a ia newA groups
  let (mapB, groups) ← v.mapDataFork b ib newB groups
  v.intoItems (groups.insertionSort fun x y => x.1 ≤ y.1)
  let blocksA ← held a ia mapA (blocksIn inA) (blocksIn inB)
  let blocksB ← held b ib mapB (blocksIn inB) (blocksIn inA)
  ensure (blocksA < 2 ^ 63 ∧ ia.nblocks < 2 ^ 63 ∧ blocksB < 2 ^ 63 ∧ ib.nblocks < 2 ^ 63)
    (.unsupportedFeature "quota block delta overflowed")
  v.charge [(a, (blocksA : ℤ) - ia.nblocks), (b, (blocksB : ℤ) - ib.nblocks)]
  countFits ia newA
  countFits ib newB
  let _ ← v.sb.inodeOffset a
  let _ ← v.sb.inodeOffset b
  pure ⟨mapA, mapB, newA, newB, blocksA, blocksB, ia.shared || ib.shared, groups⟩

end

/-! ## The volume afterwards -/

def ForkMap.inode (map : ForkMap) (inode : Inode) (blocks extents : ℕ) (reflink : Bool) : Inode :=
  { inode with
    shared := inode.shared || reflink
    format := map.format
    nblocks := blocks
    nextents := extents
    listed :=
      if sorted : Sorted map.listed then .ok ⟨map.listed, sorted⟩
      else .error (.badSuperblock "an extent starts before the previous extent's end")
    root := .ok map.root }

def readImage (sb : Superblock) (ino : ℕ) (images : List (ℕ × ℕ × Image)) (fsblock : ℕ)
    (old : Except Error Node) : Except Error Node :=
  match images.find? fun p => p.1 = fsblock with
  | none => old
  | some (_, owner, image) =>
    if owner = ino then image.read sb
    else .error (.blockIdentityMismatch "bmbt block owner" ino owner)

def exchanged (v : Volume) (a b : ℕ) (ia ib : Inode) (ex : Exchanged) : Volume :=
  let images := (ex.mapB.images.map fun p => (p.1, b, p.2)) ++
    ex.mapA.images.map fun p => (p.1, a, p.2)
  { v with
    inode := fun ino =>
      if ino = b then .ok (ForkMap.inode ex.mapB ib ex.blocksB ex.newB.length ex.reflink)
      else if ino = a then .ok (ForkMap.inode ex.mapA ia ex.blocksA ex.newA.length ex.reflink)
      else v.inode ino
    node := fun ino fsblock => readImage v.sb ino images fsblock (v.node ino fsblock) }

end Volume

/-! ## What the edited lists map -/

section

variable {first end_ fb phys : ℕ} {u : Bool} {e : Extent} {l : List Extent}

theorem mapsTo_piece {from_ to_ : ℕ} (hfrom : e.startoff ≤ from_) (hto : to_ ≤ e.endOffset) :
    MapsTo [piece e from_ to_] fb phys u ↔ MapsTo [e] fb phys u ∧ from_ ≤ fb ∧ fb < to_ := by
  unfold Extent.endOffset at hto
  simp only [mapsTo_singleton, Extent.contains_iff, piece]
  constructor
  · rintro ⟨hc, rfl, rfl⟩
    exact ⟨⟨by omega, by omega, rfl⟩, by omega, by omega⟩
  · rintro ⟨⟨hc, rfl, rfl⟩, hlo, hhi⟩
    exact ⟨by omega, by omega, rfl⟩

theorem mapsTo_bounds (h : MapsTo [e] fb phys u) : e.startoff ≤ fb ∧ fb < e.endOffset :=
  Extent.contains_iff.mp (mapsTo_singleton.mp h).1

theorem mapsTo_inside : MapsTo (inside first end_ e) fb phys u ↔
    MapsTo [e] fb phys u ∧ first ≤ fb ∧ fb < end_ := by
  unfold inside
  split
  · rw [mapsTo_piece (by omega) (by omega)]
    refine and_congr_right fun h => ?_
    have := mapsTo_bounds h
    omega
  · rw [mapsTo_nil, false_iff]
    rintro ⟨h, hlo, hhi⟩
    have := mapsTo_bounds h
    omega

theorem mapsTo_outside : MapsTo (outside first end_ e) fb phys u ↔
    MapsTo [e] fb phys u ∧ ¬(first ≤ fb ∧ fb < end_) := by
  have hleft : MapsTo (if e.startoff < first then [piece e e.startoff (min e.endOffset first)]
      else []) fb phys u ↔ MapsTo [e] fb phys u ∧ fb < first := by
    split
    · rw [mapsTo_piece (by omega) (by omega)]
      refine and_congr_right fun h => ?_
      have := mapsTo_bounds h
      omega
    · rw [mapsTo_nil, false_iff]
      rintro ⟨h, hlt⟩
      have := mapsTo_bounds h
      omega
  have hright : MapsTo (if end_ < e.endOffset then [piece e (max e.startoff end_) e.endOffset]
      else []) fb phys u ↔ MapsTo [e] fb phys u ∧ end_ ≤ fb := by
    split
    · rw [mapsTo_piece (by omega) (by omega)]
      refine and_congr_right fun h => ?_
      have := mapsTo_bounds h
      omega
    · rw [mapsTo_nil, false_iff]
      rintro ⟨h, hge⟩
      have := mapsTo_bounds h
      omega
  rw [outside, mapsTo_append, hleft, hright, ← and_or_left]
  exact and_congr_right fun _ => by omega

theorem mapsTo_cut {n : ℕ} :
    (MapsTo (cut l first n).1 fb phys u ↔ MapsTo l fb phys u ∧ first ≤ fb ∧ fb < first + n) ∧
      (MapsTo (cut l first n).2 fb phys u ↔
        MapsTo l fb phys u ∧ ¬(first ≤ fb ∧ fb < first + n)) := by
  constructor
  · simp only [cut, mapsTo_flatMap, mapsTo_inside, mapsTo_iff_singletons (l := l), ← and_assoc,
      exists_and_right]
  · simp only [cut, mapsTo_flatMap, mapsTo_outside,
      mapsTo_iff_singletons (l := l), ← and_assoc, exists_and_right]

theorem mapsTo_shifted {from_ to_ : ℕ} (hl : ∀ e ∈ l, from_ ≤ e.startoff) :
    MapsTo (shifted l from_ to_) fb phys u ↔ to_ ≤ fb ∧ MapsTo l (fb - to_ + from_) phys u := by
  have hone : ∀ e ∈ l, (shiftOne from_ to_ e).contains fb = true ∧
      phys = (shiftOne from_ to_ e).startblock + (fb - (shiftOne from_ to_ e).startoff) ∧
        u = (shiftOne from_ to_ e).unwritten ↔
      to_ ≤ fb ∧ e.contains (fb - to_ + from_) = true ∧
        phys = e.startblock + (fb - to_ + from_ - e.startoff) ∧ u = e.unwritten := by
    intro e he
    have hfrom := hl e he
    simp only [shiftOne, Extent.contains_iff]
    constructor
    · rintro ⟨hc, rfl, rfl⟩
      exact ⟨by omega, by omega, by omega, rfl⟩
    · rintro ⟨hto, hc, rfl, rfl⟩
      exact ⟨by omega, by omega, rfl⟩
  simp only [MapsTo, shifted, List.mem_map, exists_exists_and_eq_and]
  constructor
  · rintro ⟨e, he, h⟩
    obtain ⟨hto, h⟩ := (hone e he).mp h
    exact ⟨hto, e, he, h⟩
  · rintro ⟨hto, e, he, h⟩
    exact ⟨e, he, (hone e he).mpr ⟨hto, h⟩⟩

theorem continues_iff {last : Extent} : continues last e = true ↔
    last.unwritten = e.unwritten ∧ last.endOffset = e.startoff ∧
      last.startblock + last.blockcount = e.startblock ∧
      last.blockcount + e.blockcount ≤ maxExtentBlocks := by
  simp only [continues, Bool.and_eq_true, decide_eq_true_eq, and_assoc]

theorem joined_invariant {P : List Extent → Prop}
    (hstep : ∀ front last e rest, continues last e = true → P (front ++ last :: e :: rest) →
      P (front ++ { last with blockcount := last.blockcount + e.blockcount } :: rest))
    (h : P (l.insertionSort byStart)) : P (joined l) := by
  have hrun : ∀ rest front last, P (front ++ last :: rest) → P (front ++ joinFrom last rest) := by
    intro rest
    induction rest with
    | nil => exact fun _ _ h => h
    | cons e rest ih =>
      intro front last h
      unfold joinFrom
      split
      · next hc => exact ih _ _ (hstep _ _ _ _ hc h)
      · rw [List.append_cons] at h ⊢
        exact ih _ _ h
  unfold joined
  split
  · next heq => exact heq ▸ h
  · next heq => exact hrun _ [] _ (heq ▸ h)

theorem mapsTo_joined : MapsTo (joined l) fb phys u ↔ MapsTo l fb phys u := by
  refine @joined_invariant l (fun l' => MapsTo l' fb phys u ↔ MapsTo l fb phys u)
    (fun front last e rest hc h => ?_) (mapsTo_perm (List.perm_insertionSort byStart l))
  obtain ⟨hu, hoff, hphys, -⟩ := continues_iff.mp hc
  rw [← h, mapsTo_append, mapsTo_append, mapsTo_cons, mapsTo_cons (e := last), mapsTo_cons (e := e),
    ← or_assoc (b := MapsTo [e] _ _ _)]
  refine or_congr_right (or_congr_left ?_)
  simp only [mapsTo_singleton, Extent.contains_iff]
  unfold Extent.endOffset at hoff
  rw [← hu]
  constructor
  · rintro ⟨hc, rfl, rfl⟩
    by_cases hfb : fb < e.startoff
    · exact .inl ⟨by omega, rfl, rfl⟩
    · exact .inr ⟨by omega, by omega, rfl⟩
  · rintro (⟨hc, rfl, rfl⟩ | ⟨hc, rfl, rfl⟩)
    · exact ⟨by omega, rfl, rfl⟩
    · exact ⟨by omega, by omega, rfl⟩

end

/-! ## Order -/

section

variable {first n from_ to_ : ℕ} {e : Extent} {l l' : List Extent}

variable {last x : Extent} {end_ : ℕ}

theorem sorted_joined (h : Apart l) : Sorted (joined l) := by
  refine joined_invariant (fun front last e rest hc h => ?_) h.sorted
  obtain ⟨-, hoff, -⟩ := continues_iff.mp hc
  simp only [sorted_iff, List.pairwise_append, List.pairwise_cons, List.forall_mem_append,
    List.forall_mem_cons] at h ⊢
  obtain ⟨⟨hfront, ⟨-, he, hrest⟩, hcross⟩, hpos, hlast, -, hpos'⟩ := h
  refine ⟨⟨hfront, ⟨fun x hx => ?_, hrest⟩, fun x hx => ⟨(hcross x hx).1, (hcross x hx).2.2⟩⟩, hpos,
    by omega, hpos'⟩
  have hx := he x hx
  unfold Extent.endOffset at *
  dsimp only
  omega

/-! ## Pieces -/

/-- A run of an extent's blocks. -/
structure PartOf (x e : Extent) : Prop where
  lo : e.startoff ≤ x.startoff
  hi : x.endOffset ≤ e.endOffset
  pos : 0 < x.blockcount
  phys : x.startblock = e.startblock + (x.startoff - e.startoff)

theorem partOf_piece (hfrom : e.startoff ≤ from_) (hlt : from_ < to_) (hto : to_ ≤ e.endOffset) :
    PartOf (piece e from_ to_) e where
  lo := hfrom
  hi := by
    unfold Extent.endOffset piece at *
    dsimp only
    omega
  pos := Nat.sub_pos_of_lt hlt
  phys := rfl

theorem mem_inside (h : x ∈ inside first end_ e) :
    PartOf x e ∧ first ≤ x.startoff ∧ x.endOffset ≤ end_ := by
  unfold inside at h
  split at h
  · next hlt =>
    obtain rfl := List.mem_singleton.mp h
    refine ⟨partOf_piece (by omega) hlt (by omega), ?_⟩
    unfold Extent.endOffset piece at *
    dsimp only
    omega
  · cases h

theorem mem_outside (hpos : 0 < e.blockcount)
    (h : x ∈ outside first end_ e) : PartOf x e ∧ (x.endOffset ≤ first ∨ end_ ≤ x.startoff) := by
  have hend : e.endOffset = e.startoff + e.blockcount := rfl
  rcases List.mem_append.mp h with h | h
  · split at h
    · obtain rfl := List.mem_singleton.mp h
      refine ⟨partOf_piece (by omega) (by omega) (by omega), .inl ?_⟩
      unfold Extent.endOffset piece at *
      dsimp only
      omega
    · cases h
  · split at h
    · obtain rfl := List.mem_singleton.mp h
      refine ⟨partOf_piece (by omega) (by omega) (by omega), .inr ?_⟩
      unfold piece
      dsimp only
      omega
    · cases h

theorem apart_inside : Apart (inside first end_ e) where
  apart := by
    unfold inside
    split
    · exact List.pairwise_singleton _ _
    · exact .nil
  pos := fun _ hx => (mem_inside hx).1.pos

theorem apart_outside (hle : first ≤ end_) (hpos : 0 < e.blockcount) :
    Apart (outside first end_ e) where
  apart := by
    unfold outside Extent.endOffset
    split
    · split
      · refine List.pairwise_pair.mpr (.inl ?_)
        unfold Extent.endOffset piece
        dsimp only
        omega
      · exact List.pairwise_singleton _ _
    · split
      · exact List.pairwise_singleton _ _
      · exact .nil
  pos := fun _ hx => (mem_outside hpos hx).1.pos

theorem apart_shifted (hl : Apart l) (hfrom : ∀ e ∈ l, from_ ≤ e.startoff) :
    Apart (shifted l from_ to_) where
  apart := by
    refine List.pairwise_map.mpr (hl.apart.imp_of_mem fun {a b} ha hb hab => ?_)
    have hfa := hfrom a ha
    have hfb := hfrom b hb
    unfold Clear Extent.endOffset shiftOne at *
    dsimp only
    omega
  pos := by
    intro x hx
    obtain ⟨e, he, rfl⟩ := List.mem_map.mp hx
    exact hl.pos e he

/-- A list with its blocks in a range replaced by another's, moved there, covers no file block
twice. -/
theorem apart_replaced (hl : Apart l) (hl' : Apart l') :
    Apart ((cut l to_ n).2 ++ shifted (cut l' from_ n).1 from_ to_) := by
  have hin : ∀ x ∈ (cut l' from_ n).1, from_ ≤ x.startoff ∧ x.endOffset ≤ from_ + n := by
    intro x hx
    obtain ⟨e, -, hx⟩ := List.mem_flatMap.mp hx
    exact (mem_inside hx).2
  refine apart_append.mpr ⟨?_, apart_shifted ?_ fun x hx => (hin x hx).1, ?_⟩
  · exact apart_flatMap hl (fun e he => apart_outside (Nat.le_add_right _ _) (hl.pos e he))
      fun e he x hx => ⟨(mem_outside (hl.pos e he) hx).1.lo, (mem_outside (hl.pos e he) hx).1.hi⟩
  · exact apart_flatMap hl' (fun _ _ => apart_inside)
      fun e he x hx => ⟨(mem_inside hx).1.lo, (mem_inside hx).1.hi⟩
  · intro a ha b hb
    obtain ⟨e, he, ha⟩ := List.mem_flatMap.mp ha
    obtain ⟨x, hx, rfl⟩ := List.mem_map.mp hb
    have hout := (mem_outside (hl.pos e he) ha).2
    have hx := hin x hx
    unfold Clear Extent.endOffset shiftOne at *
    dsimp only
    omega

end

/-! ## The blocks mapped -/

section

variable {first n from_ to_ b : ℕ} {e : Extent} {l l' : List Extent}

theorem countHolds_cut_one {end_ : ℕ} (hle : first ≤ end_) :
    countHolds b (inside first end_ e) + countHolds b (outside first end_ e) =
      countHolds b [e] := by
  have hone : ∀ x : Extent, countHolds b [x] = if x.Holds b then 1 else 0 := fun x => by
    rw [countHolds_cons, countHolds, List.countP_nil, Nat.zero_add]
  have hnil : countHolds b [] = 0 := rfl
  unfold outside inside Extent.endOffset
  rw [countHolds_append, hone]
  split <;> split <;> split <;> simp only [hone, hnil, Extent.Holds, piece] <;> grind

theorem countHolds_cut : countHolds b (cut l first n).1 + countHolds b (cut l first n).2 =
    countHolds b l := by
  induction l with
  | nil => rfl
  | cons e l ih =>
    have hone := countHolds_cut_one (b := b) (e := e) (Nat.le_add_right first n)
    have hsplit := countHolds_append b [e] l
    simp only [cut, List.flatMap_cons, countHolds_append] at ih ⊢
    rw [← List.singleton_append, hsplit]
    omega

theorem countHolds_shifted : countHolds b (shifted l from_ to_) = countHolds b l :=
  List.countP_map

theorem countHolds_joined : countHolds b (joined l) = countHolds b l := by
  refine @joined_invariant l (fun l' => countHolds b l' = countHolds b l)
    (fun front last e rest hc h => ?_) (countHolds_perm b (List.perm_insertionSort byStart l))
  obtain ⟨-, -, hphys, -⟩ := continues_iff.mp hc
  rw [← h, countHolds_append, countHolds_append, countHolds_cons, countHolds_cons, countHolds_cons]
  simp only [Extent.Holds]
  grind

end

/-! ## Bounds -/

section

variable {sb : Superblock}

theorem extentInBounds_iff {s c : ℕ} : sb.extentInBounds s c = true ↔
    c ≠ 0 ∧ s + (c - 1) < 2 ^ 64 ∧ s / 2 ^ sb.agblklog < sb.agcount ∧
      (s + (c - 1)) / 2 ^ sb.agblklog = s / 2 ^ sb.agblklog ∧
      3 * sb.sectsize / sb.blocksize < s % 2 ^ sb.agblklog ∧
      (s + (c - 1)) % 2 ^ sb.agblklog < sb.groupLength (s / 2 ^ sb.agblklog) := by
  simp only [Superblock.extentInBounds, Bool.and_eq_true, decide_eq_true_eq, and_assoc]

theorem PartOf.inBounds {x e : Extent} (h : PartOf x e)
    (hb : sb.extentInBounds e.startblock e.blockcount = true) :
    sb.extentInBounds x.startblock x.blockcount = true := by
  obtain ⟨hne, hlt, hag, hsame, hlo, hhi⟩ := extentInBounds_iff.mp hb
  obtain ⟨hxlo, hxhi, hpos, hphys⟩ := h
  unfold Extent.endOffset at hxhi
  rw [extentInBounds_iff]
  generalize 2 ^ sb.agblklog = p at *
  have hfirst : x.startblock / p = e.startblock / p := by
    have h1 : e.startblock / p ≤ x.startblock / p := Nat.div_le_div_right (by omega)
    have h2 : x.startblock / p ≤ (e.startblock + (e.blockcount - 1)) / p :=
      Nat.div_le_div_right (by omega)
    omega
  have hlast : (x.startblock + (x.blockcount - 1)) / p = e.startblock / p := by
    have h1 : x.startblock / p ≤ (x.startblock + (x.blockcount - 1)) / p :=
      Nat.div_le_div_right (by omega)
    have h2 : (x.startblock + (x.blockcount - 1)) / p ≤ (e.startblock + (e.blockcount - 1)) / p :=
      Nat.div_le_div_right (by omega)
    omega
  have hd1 := Nat.div_add_mod e.startblock p
  have hd2 := Nat.div_add_mod x.startblock p
  have hd3 := Nat.div_add_mod (x.startblock + (x.blockcount - 1)) p
  have hd4 := Nat.div_add_mod (e.startblock + (e.blockcount - 1)) p
  rw [hfirst] at hd2
  rw [hlast] at hd3
  rw [hsame] at hd4
  refine ⟨by omega, by omega, hfirst ▸ hag, hlast.trans hfirst.symm, ?_, ?_⟩
  · omega
  · rw [hfirst]
    omega

theorem extentInBounds_join {s c c' : ℕ} (h : sb.extentInBounds s c = true)
    (h' : sb.extentInBounds (s + c) c' = true) : sb.extentInBounds s (c + c') = true := by
  obtain ⟨hne, hlt, hag, hsame, hlo, hhi⟩ := extentInBounds_iff.mp h
  obtain ⟨hne', hlt', hag', hsame', hlo', hhi'⟩ := extentInBounds_iff.mp h'
  rw [extentInBounds_iff, show s + (c + c' - 1) = s + c + (c' - 1) by omega]
  generalize 2 ^ sb.agblklog = p at *
  have hgroup : (s + c) / p = s / p := by
    rw [← hsame, show s + c = s + (c - 1) + 1 by omega, Nat.succ_div]
    rw [if_neg, Nat.add_zero]
    intro hdvd
    rw [show s + (c - 1) + 1 = s + c by omega] at hdvd
    rw [Nat.mod_eq_zero_of_dvd hdvd] at hlo'
    exact absurd hlo' (Nat.not_lt_zero _)
  rw [hgroup] at hsame' hhi'
  exact ⟨by omega, hlt', hag, hsame', hlo, hhi'⟩

theorem joined_inBounds {l : List Extent}
    (h : ∀ e ∈ l, sb.extentInBounds e.startblock e.blockcount = true) :
    ∀ e ∈ joined l, sb.extentInBounds e.startblock e.blockcount = true := by
  refine @joined_invariant l
    (fun l => ∀ e ∈ l, sb.extentInBounds e.startblock e.blockcount = true)
    (fun front last e rest hc h => ?_) fun e he => h e ((List.mem_insertionSort byStart).mp he)
  obtain ⟨-, -, hphys, -⟩ := continues_iff.mp hc
  simp only [List.forall_mem_append, List.forall_mem_cons] at h ⊢
  obtain ⟨hfront, hlast, he, hrest⟩ := h
  exact ⟨hfront, extentInBounds_join hlast (hphys ▸ he), hrest⟩

end

end FsXfs.File
