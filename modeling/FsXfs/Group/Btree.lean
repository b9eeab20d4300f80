import FsXfs.Group.FreeList
import FsXfs.Lib.Fields
import FsXfs.Log.Image
import Mathlib.Data.List.SplitLengths

/-!
# A group's trees on disk

`ag_btree.rs`: the block layout the free-space, reverse-mapping and reference-count trees share.
`build` lays a list of records out over a list of blocks, `walkBlocks` reads a tree back, and
`relay` lays a tree out again over the blocks it holds, taking from the free list what it grows by
and putting back what it shrinks by.
-/

namespace FsXfs.Group

open Bytes Quota Log

set_option autoImplicit false

structure Shape where
  name : String
  magicV4 : Option ℕ
  magicV5 : ℕ
  recordLen : ℕ
  keyLen : ℕ
  overlapping : Bool

namespace Shape

def keysPerEntry (shape : Shape) : ℕ :=
  if shape.overlapping then 2 else 1

def keysWide (shape : Shape) : ℕ :=
  shape.keysPerEntry * shape.keyLen

end Shape

/-- How a tree's records are read and written, and the keys that stand for those under a child. -/
structure Codec (T : Type) where
  shape : Shape
  encode : T → List UInt8
  decode : List UInt8 → T
  keys : List T → List UInt8

abbrev ptrLen : ℕ := 4
abbrev maxLevels : ℕ := 9

abbrev btLevel : ℕ := 4
abbrev btNumrecs : ℕ := 6
abbrev btBlkno : ℕ := 16
abbrev btUuid : ℕ := 32
abbrev btOwner : ℕ := 48
abbrev btCrc : ℕ := 52

def maxrecs (space per : ℕ) : ℕ :=
  space / max per 1

section

variable (sb : Superblock) (shape : Shape)

def btHeader : ℕ :=
  if sb.isV5 then 56 else 16

def perLeaf : ℕ :=
  maxrecs (sb.blocksize - btHeader sb) shape.recordLen

def perNode : ℕ :=
  maxrecs (sb.blocksize - btHeader sb) (shape.keysWide + ptrLen)

def expectedBlkno (agno agblock : ℕ) : ℕ :=
  wrap64 ((agno * sb.agblocks + agblock) * sb.blocksize) / 512

/-! ## How many blocks -/

def tooDeep (records : ℕ) : Error :=
  .unsupportedFeature s!"{records} {shape.name} records need a tree more than {maxLevels} levels deep"

def planFrom (per records : ℕ) : ℕ → ℕ → Except Error (List ℕ)
  | room, below =>
    if below ≤ 1 then .ok [below]
    else
      match room with
      | 0 => .error (tooDeep shape records)
      | room + 1 => do
        let above ← planFrom per records room (divCeil below per)
        pure (below :: above)

def plan (records : ℕ) : Except Error (List ℕ) := do
  ensure (perLeaf sb shape ≠ 0 ∧ 2 ≤ perNode sb shape)
    (.unsupportedFeature s!"a {shape.name} block of {sb.blocksize} bytes holds {perLeaf sb shape} records and {perNode sb shape} pointers, which cannot make a tree")
  planFrom shape (perNode sb shape) records (maxLevels - 1) (max (divCeil records (perLeaf sb shape)) 1)

end

/-! ## Writing blocks -/

def putFields (width : ℕ) : List UInt8 → ℕ → List (List UInt8) → List UInt8
  | buf, _, [] => buf
  | buf, at_, field :: fields => putFields width (patch buf at_ field) (at_ + width) fields

section

variable (crc32c : List UInt8 → ℕ) (sb : Superblock) (agno : ℕ)

def btMagic (shape : Shape) : ℕ :=
  if sb.isV5 then shape.magicV5 else shape.magicV4.getD shape.magicV5

def stampHeader (shape : Shape) (agblock level numrecs : ℕ) (buf : List UInt8) : List UInt8 :=
  let buf := patch buf 0 (beBytes 4 (btMagic sb shape))
  let buf := patch buf btLevel (beBytes 2 level)
  let buf := patch buf btNumrecs (beBytes 2 numrecs)
  let buf := patch buf 8 (beBytes 4 (2 ^ 32 - 1))
  let buf := patch buf 12 (beBytes 4 (2 ^ 32 - 1))
  if sb.isV5 then
    let buf := patch buf btBlkno (beBytes 8 (expectedBlkno sb agno agblock))
    let buf := patch buf btUuid sb.metaUuid
    let buf := patch buf btOwner (beBytes 4 agno)
    patch buf btCrc (leBytes 4 (crc32cWithZeroedCrc crc32c buf btCrc))
  else buf

variable {T : Type} (codec : Codec T)

def leafBytes (agblock : ℕ) (records : List T) : List UInt8 :=
  stampHeader crc32c sb agno codec.shape agblock 0 records.length
    (putFields codec.shape.recordLen (List.replicate sb.blocksize 0) (btHeader sb)
      (records.map codec.encode))

def nodeBytes (agblock level : ℕ) (children : List (ℕ × List T)) : List UInt8 :=
  let buf := putFields codec.shape.keysWide (List.replicate sb.blocksize 0) (btHeader sb)
    (children.map fun child => codec.keys child.2)
  let buf := putFields ptrLen buf
    (btHeader sb + perNode sb codec.shape * codec.shape.keysWide)
    (children.map fun child => beBytes 4 child.1)
  stampHeader crc32c sb agno codec.shape agblock level children.length buf

def buildNodes : ℕ → List ℕ → List (ℕ × List T) → List ℕ →
    Except Error (List (ℕ × List UInt8))
  | _, [], _, _ => .ok []
  | level, count :: above, below, blocks => do
    let counts := share below.length count
    ensure (counts.sum = below.length)
      (.internal s!"the node layout consumed {counts.sum} of {below.length} child blocks")
    let here := (blocks.take count).zip (counts.splitLengths below)
    let rest ← buildNodes (level + 1) above
      (here.map fun node => (node.1, node.2.flatMap Prod.snd)) (blocks.drop count)
    pure (here.map (fun node => (node.1, nodeBytes crc32c sb agno codec node.1 level node.2)) ++ rest)

def build (records : List T) (blocks : List ℕ) : Except Error (List (ℕ × List UInt8)) := do
  let levels ← plan sb codec.shape records.length
  ensure (blocks.length = levels.sum)
    (.unsupportedFeature s!"laying out {records.length} {codec.shape.name} records needs {levels.sum} blocks and {blocks.length} were given")
  let leaves := levels.headD 0
  let counts := share records.length leaves
  ensure (counts.sum = records.length)
    (.internal s!"the leaf layout consumed {counts.sum} of {records.length} records; the tree on disk would claim a size it does not have")
  let here := (blocks.take leaves).zip (counts.splitLengths records)
  let nodes ← buildNodes crc32c sb agno codec 1 levels.tail here (blocks.drop leaves)
  pure (here.map (fun leaf => (leaf.1, leafBytes crc32c sb agno codec leaf.1 leaf.2)) ++ nodes)

end

/-! ## Laying a tree out again -/

section

variable (sb : Superblock) (agno : ℕ)

def growBy : ℕ → List ℕ → Agfl → Except Error (List ℕ × Agfl)
  | 0, blocks, agfl => .ok (blocks, agfl)
  | n + 1, blocks, agfl => do
    let (block, agfl) ← agfl.take sb agno
    growBy n (blocks ++ [block]) agfl

def shrinkBy : ℕ → List ℕ → Agfl → Except Error (List ℕ × Agfl)
  | 0, blocks, agfl => .ok (blocks, agfl)
  | n + 1, blocks, agfl => do
    let spare ← orElse blocks.getLast? (.panicked "more blocks than wanted")
    let agfl ← agfl.put sb agno spare
    shrinkBy n blocks.dropLast agfl

def refit (wanted : ℕ) (held : List ℕ) (agfl : Agfl) : Except Error (List ℕ × Agfl) := do
  let (blocks, agfl) ← growBy sb agno (wanted - held.length) held agfl
  shrinkBy sb agno (blocks.length - wanted) blocks agfl

def itemOf (read : ℕ → Except Error (List UInt8)) (before : ℕ → Option (List UInt8))
    (block : ℕ × List UInt8) : Except Error (Option BufferItem) := do
  let was ← (before block.1).elim (read block.1) .ok
  if was = block.2 then pure none
  else do
    let item ← changedChunks (expectedBlkno sb agno block.1) was block.2 blftBtree
    pure (some item)

variable (crc32c : List UInt8 → ℕ) {T : Type} (codec : Codec T)

def relay (read : ℕ → Except Error (List UInt8)) (before : ℕ → Option (List UInt8))
    (records : List T) (held : List ℕ) (agfl : Agfl) :
    Except Error (List ℕ × Agfl × List BufferItem) := do
  let levels ← plan sb codec.shape records.length
  let (blocks, agfl) ← refit sb agno levels.sum held agfl
  let built ← build crc32c sb agno codec records blocks
  let items ← built.mapM (itemOf sb agno read before)
  pure (blocks, agfl, items.reduceOption)

end

/-! ## Reading a tree -/

structure Node where
  level : ℕ
  numrecs : ℕ
  maxrecs : ℕ

section

variable (crc32c : List UInt8 → ℕ) (sb : Superblock) (agno : ℕ)

def wantedMagic (shape : Shape) : Except Error ℕ :=
  if sb.isV5 then .ok shape.magicV5
  else orElse shape.magicV4
    (.unsupportedFeature s!"AG {agno}: a {shape.name} is a v5 feature and this filesystem is v4")

def entryWidth (shape : Shape) (level : ℕ) : ℕ :=
  if level = 0 then shape.recordLen else shape.keysWide + ptrLen

def checkBlock (buf : List UInt8) (agblock : ℕ) : Except Error Unit := do
  ensure (leValue (slice buf btCrc 4) = crc32cWithZeroedCrc crc32c buf btCrc)
    (.checksumMismatch "group btree block" agblock)
  ensure (slice buf btUuid 16 = sb.metaUuid)
    (.blockIdentityMismatch "group btree block" agblock u64Max)
  ensure (beAt buf btOwner 4 = agno)
    (.blockIdentityMismatch "group btree block owner" agno (beAt buf btOwner 4))
  ensure (beAt buf btBlkno 8 = expectedBlkno sb agno agblock)
    (.blockIdentityMismatch "group btree block address" (expectedBlkno sb agno agblock)
      (beAt buf btBlkno 8))

def parseBlock (shape : Shape) (buf : List UInt8) (agblock expectLevel : ℕ) : Except Error Node := do
  ensure (btHeader sb ≤ buf.length)
    (.badSuperblock s!"AG {agno}: {shape.name} block {agblock} is {buf.length} bytes, shorter than its {btHeader sb}-byte header")
  let want ← wantedMagic sb agno shape
  ensure (beAt buf 0 4 = want)
    (.badSuperblock s!"AG {agno}: {shape.name} block {agblock} has magic {beAt buf 0 4}, expected {want}")
  whenV5 sb (checkBlock crc32c sb agno buf agblock)
  let level := beAt buf btLevel 2
  ensure (level = expectLevel)
    (.badSuperblock s!"AG {agno}: {shape.name} block {agblock} is at level {level}, but its parent points to it as level {expectLevel}")
  let most := maxrecs (buf.length - btHeader sb) (entryWidth shape level)
  let numrecs := beAt buf btNumrecs 2
  ensure (numrecs ≤ most)
    (.badSuperblock s!"AG {agno}: {shape.name} block {agblock} claims {numrecs} records but has room for {most}")
  pure ⟨level, numrecs, most⟩

variable {T : Type} (codec : Codec T)

def leafRecords (buf : List UInt8) (node : Node) : List T :=
  (List.range node.numrecs).map fun i =>
    codec.decode (slice buf (btHeader sb + i * codec.shape.recordLen) codec.shape.recordLen)

def nodePointers (buf : List UInt8) (node : Node) : List ℕ :=
  let first := btHeader sb + node.maxrecs * codec.shape.keysWide
  (List.range node.numrecs).map fun i => beAt buf (first + i * ptrLen) ptrLen

def walkLoop (read : ℕ → Except Error (List UInt8)) :
    ℕ → List (ℕ × ℕ) → List T → (ℕ → List ℕ) → Except Error (List T × (ℕ → List ℕ))
  | _, [], out, seen => .ok (out, seen)
  | 0, _ :: _, _, _ =>
    .error (.badSuperblock s!"AG {agno}: the walk visited more blocks than the group holds; the tree points back into itself")
  | budget + 1, (agblock, expectLevel) :: stack, out, seen => do
    let buf ← read agblock
    let node ← parseBlock crc32c sb agno codec.shape buf agblock expectLevel
    let seen := Function.update seen node.level (seen node.level ++ [agblock])
    if node.level = 0 then do
      let end_ := btHeader sb + node.numrecs * codec.shape.recordLen
      ensure (end_ ≤ buf.length)
        (.badSuperblock s!"AG {agno}: {codec.shape.name} leaf {agblock} needs {end_} bytes for its {node.numrecs} records but is only {buf.length} long")
      walkLoop read budget stack (out ++ leafRecords sb codec buf node) seen
    else do
      let end_ := btHeader sb + node.maxrecs * codec.shape.keysWide + node.numrecs * ptrLen
      ensure (end_ ≤ buf.length)
        (.badSuperblock s!"AG {agno}: {codec.shape.name} node {agblock} needs {end_} bytes for its pointer array but is only {buf.length} long")
      walkLoop read budget
        ((nodePointers sb codec buf node).map (fun child => (child, node.level - 1)) ++ stack) out seen

def walkBlocks (read : ℕ → Except Error (List UInt8)) (root levels : ℕ) :
    Except Error (List T × List ℕ) := do
  ensure (levels ≠ 0 ∧ levels ≤ maxLevels)
    (.badSuperblock s!"AG {agno}: {codec.shape.name} claims {levels} levels, which is not a tree")
  let (out, seen) ← walkLoop crc32c sb agno codec read (max sb.agblocks 64) [(root, levels - 1)] []
    fun _ => []
  pure (out, (List.range levels).flatMap seen)

end

/-! ## How deep a tree is -/

section

variable {sb : Superblock} {shape : Shape}

theorem divCeil_le_half {n d : ℕ} (hd : 2 ≤ d) : divCeil n d ≤ (n + 1) / 2 := by
  rw [divCeil, Nat.div_le_iff_le_mul_add_pred (by omega)]
  have hmul : d * ((n + 1) / 2) ≥ 2 * ((n + 1) / 2) := Nat.mul_le_mul_right _ hd
  omega

variable {records : ℕ} {levels : List ℕ}

theorem planFrom_spec {per room below : ℕ} (hper : 2 ≤ per) (hbelow : 0 < below)
    (h : planFrom shape per records room below = .ok levels) :
    levels.head? = some below ∧ levels.getLast? = some 1 ∧ levels.sum ≤ 3 * below ∧
      levels.length ≤ room + 1 := by
  induction room generalizing below levels with
  | zero =>
    unfold planFrom at h
    split at h
    · have hone : below = 1 := by omega
      rw [← Except.ok.inj h, hone]
      decide
    · cases h
  | succ room ih =>
    unfold planFrom at h
    split at h
    · have hone : below = 1 := by omega
      rw [← Except.ok.inj h, hone]
      exact ⟨rfl, rfl, by decide, by simp⟩
    · obtain ⟨above, habove, h⟩ := bind_eq_ok.mp h
      obtain ⟨hhead, hlast, hsum, hlen⟩ := ih (divCeil_pos hbelow (by omega)) habove
      have hhalf := divCeil_le_half (n := below) hper
      rw [← Except.ok.inj h]
      refine ⟨rfl, ?_, ?_, ?_⟩
      · rw [List.getLast?_cons, hlast]
        rfl
      · rw [List.sum_cons]
        omega
      · rw [List.length_cons]
        omega

theorem plan_spec (h : plan sb shape records = .ok levels) :
    0 < perLeaf sb shape ∧ 2 ≤ perNode sb shape ∧
      levels.head? = some (max (divCeil records (perLeaf sb shape)) 1) ∧
      levels.getLast? = some 1 ∧ levels.sum ≤ 3 * max (divCeil records (perLeaf sb shape)) 1 ∧
      levels.length ≤ maxLevels := by
  obtain ⟨_, hwide, h⟩ := bind_eq_ok.mp h
  obtain ⟨hleaf, hnode⟩ := ensure_eq_ok.mp hwide
  obtain ⟨hhead, hlast, hsum, hlen⟩ := planFrom_spec hnode (by omega) h
  exact ⟨Nat.pos_of_ne_zero hleaf, hnode, hhead, hlast, hsum, hlen⟩

theorem plan_sum_pos (h : plan sb shape records = .ok levels) :
    0 < levels.sum := by
  obtain ⟨-, -, -, hlast, -, -⟩ := plan_spec h
  exact List.le_sum_of_mem (List.mem_of_getLast? hlast)

end

/-! ## The blocks a tree is laid out over -/

section

variable {sb : Superblock} {agno : ℕ} {agfl agfl' : Agfl}

variable {blocks : List ℕ}

theorem growBy_spec {n : ℕ} {blocks' : List ℕ} (hok : agfl.Ok sb)
    (h : growBy sb agno n blocks agfl = .ok (blocks', agfl')) :
    ∃ taken, taken.length = n ∧ blocks' = blocks ++ taken ∧
      agfl.entries sb = taken ++ agfl'.entries sb ∧ agfl'.Ok sb ∧ agfl'.length = agfl.length ∧
      ∀ b ∈ taken, lastHeaderBlock sb < b ∧ b < agfl.length := by
  induction n generalizing blocks agfl with
  | zero =>
    cases h
    exact ⟨[], rfl, (List.append_nil _).symm, rfl, hok, rfl, by simp⟩
  | succ n ih =>
    obtain ⟨⟨b, mid⟩, htake, h⟩ := bind_eq_ok.mp h
    obtain ⟨hentries, hmid, hlength, -, hlo, hhi⟩ := Agfl.take_spec hok htake
    obtain ⟨taken, hlen, hblocks, htaken, hok', hlength', hin⟩ := ih hmid h
    refine ⟨b :: taken, by rw [List.length_cons, hlen], ?_, ?_, hok', hlength'.trans hlength, ?_⟩
    · rw [hblocks, List.append_assoc]
      rfl
    · rw [hentries, htaken]
      rfl
    · intro c hc
      rcases List.mem_cons.mp hc with rfl | hc
      · exact ⟨hlo, hhi⟩
      · exact hlength ▸ hin c hc

theorem shrinkBy_spec {n : ℕ} {blocks' : List ℕ} (hok : agfl.Ok sb)
    (hblocks : ∀ b ∈ blocks, b < 2 ^ 32) (h : shrinkBy sb agno n blocks agfl = .ok (blocks', agfl')) :
    ∃ spare, spare.length = n ∧ blocks = blocks' ++ spare ∧
      agfl'.entries sb = agfl.entries sb ++ spare.reverse ∧ agfl'.Ok sb ∧
      agfl'.length = agfl.length := by
  induction n generalizing blocks agfl with
  | zero =>
    cases h
    exact ⟨[], rfl, (List.append_nil _).symm, (List.append_nil _).symm, hok, rfl⟩
  | succ n ih =>
    obtain ⟨b, hlast, h⟩ := bind_eq_ok.mp h
    obtain ⟨mid, hput, h⟩ := bind_eq_ok.mp h
    have hlast' := orElse_eq_ok.mp hlast
    have hsplit := List.dropLast_append_getLast? b hlast'
    obtain ⟨hentries, hmid, hlength⟩ :=
      Agfl.put_spec hok (hblocks b (List.mem_of_getLast? hlast')) hput
    obtain ⟨spare, hlen, hspare, hput', hok', hlength'⟩ :=
      ih hmid (fun c hc => hblocks c (List.mem_of_mem_dropLast hc)) h
    refine ⟨spare ++ [b], by rw [List.length_append, hlen]; rfl, ?_, ?_, hok',
      hlength'.trans hlength⟩
    · rw [← hsplit, hspare, List.append_assoc]
    · rw [hput', hentries, List.append_assoc, List.reverse_append]
      rfl

/-- A tree grows by the blocks at the front of the free list, or puts the ones at its own end at the
back of it. -/
theorem refit_spec {wanted : ℕ} {held : List ℕ} (hok : agfl.Ok sb) (hheld : ∀ b ∈ held, b < 2 ^ 32)
    (h : refit sb agno wanted held agfl = .ok (blocks, agfl')) :
    blocks.length = wanted ∧ agfl'.Ok sb ∧ agfl'.length = agfl.length ∧
      ((∃ taken, blocks = held ++ taken ∧ agfl.entries sb = taken ++ agfl'.entries sb ∧
          ∀ b ∈ taken, lastHeaderBlock sb < b ∧ b < agfl.length) ∨
        ∃ spare, held = blocks ++ spare ∧ agfl'.entries sb = agfl.entries sb ++ spare.reverse) := by
  obtain ⟨⟨grown, mid⟩, hgrow, hshrink⟩ := bind_eq_ok.mp h
  dsimp only at hshrink
  obtain ⟨taken, hlen, hgrown, hentries, hmid, hlength, hin⟩ := growBy_spec hok hgrow
  rcases Nat.lt_or_ge wanted held.length with hlt | hge
  · -- nothing was taken
    have htaken : taken = [] := List.eq_nil_of_length_eq_zero (by omega)
    subst htaken
    rw [List.append_nil] at hgrown
    rw [hgrown] at hshrink
    obtain ⟨spare, hspare, hheld', hput, hok', hlength'⟩ := shrinkBy_spec hmid hheld hshrink
    refine ⟨?_, hok', hlength'.trans hlength, .inr ⟨spare, hheld', ?_⟩⟩
    · have hsum := congrArg List.length hheld'
      rw [List.length_append] at hsum
      omega
    · rw [hput, hentries]
      rfl
  · have hwanted : grown.length = wanted := by
      rw [hgrown, List.length_append]
      omega
    have hnone : grown.length - wanted = 0 := by omega
    rw [hnone] at hshrink
    cases hshrink
    exact ⟨hwanted, hmid, hlength, .inl ⟨taken, hgrown, hentries, hin⟩⟩

end

/-! ## The blocks a walk meets -/

section

variable {T : Type}

section

variable (crc32c : List UInt8 → ℕ) (sb : Superblock) (agno : ℕ) (codec : Codec T)
  (read : ℕ → Except Error (List UInt8))

/-- The blocks a block of the tree points to: none, where it cannot be read. -/
def childrenOf (agblock level : ℕ) : List ℕ :=
  match read agblock with
  | .error _ => []
  | .ok buf =>
    match parseBlock crc32c sb agno codec.shape buf agblock level with
    | .error _ => []
    | .ok node => nodePointers sb codec buf node

/-- Every block that pointers lead to from one, itself first, each as often as they do and with its
level. -/
def under : ℕ → ℕ → List (ℕ × ℕ)
  | 0, agblock => [(agblock, 0)]
  | level + 1, agblock =>
    (agblock, level + 1) ::
      (childrenOf crc32c sb agno codec read agblock (level + 1)).flatMap (under level)

end

variable {crc32c : List UInt8 → ℕ} {sb : Superblock} {agno : ℕ} {codec : Codec T}
  {read : ℕ → Except Error (List UInt8)}

theorem under_spec {level agblock : ℕ} :
    ∀ e ∈ under crc32c sb agno codec read level agblock,
      e.2 ≤ level ∧ (e.1 = agblock ∨ e.1 < 2 ^ 32) := by
  induction level generalizing agblock with
  | zero => simp [under]
  | succ level ih =>
    intro e he
    rcases List.mem_cons.mp he with rfl | he
    · exact ⟨le_refl _, .inl rfl⟩
    · obtain ⟨child, hchild, he⟩ := List.mem_flatMap.mp he
      obtain ⟨hle, hblock⟩ := ih e he
      refine ⟨hle.trans (Nat.le_succ level), .inr (hblock.elim (fun heq => ?_) id)⟩
      unfold childrenOf at hchild
      split at hchild
      · cases hchild
      split at hchild
      · cases hchild
      · obtain ⟨i, -, rfl⟩ := List.mem_map.mp hchild
        exact heq ▸ beAt_lt _ _ 4

theorem walkLoop_nil {budget : ℕ} {out : List T} {seen : ℕ → List ℕ} :
    walkLoop crc32c sb agno codec read budget [] out seen = .ok (out, seen) := by
  cases budget <;> rfl

theorem parseBlock_level {shape : Shape} {buf : List UInt8} {agblock level : ℕ} {node : Node}
    (h : parseBlock crc32c sb agno shape buf agblock level = .ok node) : node.level = level := by
  simp only [parseBlock, bind_eq_ok, ensure_eq_ok, pure, Except.pure, Except.ok.injEq, exists_const]
    at h
  obtain ⟨-, want, -, -, _, -, hlevel, -, rfl⟩ := h
  exact hlevel

/-- A walk adds to each level the blocks of that level under the ones on its stack. -/
theorem walkLoop_seen {budget : ℕ} {stack : List (ℕ × ℕ)} {out out' : List T}
    {seen seen' : ℕ → List ℕ}
    (h : walkLoop crc32c sb agno codec read budget stack out seen = .ok (out', seen')) (l : ℕ) :
    seen' l = seen l ++ ((stack.flatMap fun entry =>
      under crc32c sb agno codec read entry.2 entry.1).filter (·.2 = l)).map Prod.fst := by
  induction budget generalizing stack out seen with
  | zero =>
    cases stack with
    | nil =>
      obtain ⟨-, rfl⟩ := Prod.mk.inj (Except.ok.inj (walkLoop_nil.symm.trans h))
      simp
    | cons entry stack => cases h
  | succ budget ih =>
    cases stack with
    | nil =>
      obtain ⟨-, rfl⟩ := Prod.mk.inj (Except.ok.inj (walkLoop_nil.symm.trans h))
      simp
    | cons entry stack =>
      obtain ⟨agblock, level⟩ := entry
      obtain ⟨buf, hbuf, hrest⟩ := bind_eq_ok.mp h
      obtain ⟨node, hnode, hloop⟩ := bind_eq_ok.mp hrest
      obtain rfl := parseBlock_level hnode
      have hupdate : Function.update seen node.level (seen node.level ++ [agblock]) l =
          seen l ++ ([(agblock, node.level)].filter (·.2 = l)).map Prod.fst := by
        by_cases hlevel : node.level = l
        · subst hlevel
          simp
        · simp [hlevel, Function.update_of_ne (Ne.symm hlevel)]
      have hunder : under crc32c sb agno codec read node.level agblock =
          [(agblock, node.level)] ++ if node.level = 0 then [] else
            (nodePointers sb codec buf node).flatMap
              (under crc32c sb agno codec read (node.level - 1)) := by
        cases hlevel : node.level with
        | zero => rfl
        | succ below =>
          rw [hlevel] at hnode
          rw [under, childrenOf, hbuf]
          dsimp only
          rw [hnode]
          rfl
      rw [List.flatMap_cons, hunder, List.append_assoc, List.filter_append, List.map_append,
        ← List.append_assoc, ← hupdate]
      split at hloop
      next hleaf =>
        obtain ⟨-, -, hloop⟩ := bind_eq_ok.mp hloop
        rw [if_pos hleaf]
        exact ih hloop
      next hinner =>
        obtain ⟨-, -, hloop⟩ := bind_eq_ok.mp hloop
        rw [if_neg hinner, ih hloop, List.flatMap_append, List.flatMap_map]

theorem perm_levels (xs : List (ℕ × ℕ)) (n : ℕ) :
    ((List.range n).flatMap fun l => xs.filter (·.2 = l)).Perm (xs.filter (·.2 < n)) := by
  induction n with
  | zero => simp
  | succ n ih =>
    have hsplit := List.filter_append_perm (fun x : ℕ × ℕ => decide (x.2 < n))
      (xs.filter (·.2 < n + 1))
    rw [List.filter_filter, List.filter_filter] at hsplit
    rw [List.range_succ, List.flatMap_append, List.flatMap_singleton]
    refine (ih.append_right _).trans (List.Perm.trans (List.Perm.of_eq ?_) hsplit)
    congr 1
    all_goals
      refine List.filter_congr fun x _ => ?_
      rw [Bool.eq_iff_iff]
      simp
      omega

section

variable {root levels : ℕ} {records : List T} {blocks : List ℕ}
  (h : walkBlocks crc32c sb agno codec read root levels = .ok (records, blocks))

include h

/-- The blocks a walk answers with are the ones its pointers lead to. -/
theorem walkBlocks_perm :
    blocks.Perm ((under crc32c sb agno codec read (levels - 1) root).map Prod.fst) := by
  obtain ⟨_, hlevels, h⟩ := bind_eq_ok.mp h
  obtain ⟨hpos, -⟩ := ensure_eq_ok.mp hlevels
  obtain ⟨⟨out, seen⟩, hloop, h⟩ := bind_eq_ok.mp h
  obtain ⟨-, rfl⟩ := Prod.mk.inj (Except.ok.inj h)
  have hseen : seen = fun l => ((under crc32c sb agno codec read (levels - 1) root).filter
      (·.2 = l)).map Prod.fst := by
    funext l
    simpa using walkLoop_seen hloop l
  have hall : (under crc32c sb agno codec read (levels - 1) root).filter (·.2 < levels) =
      under crc32c sb agno codec read (levels - 1) root := by
    refine List.filter_eq_self.mpr fun e he => ?_
    have hle := (under_spec e he).1
    simp only [decide_eq_true_eq]
    omega
  rw [hseen, ← List.map_flatMap]
  exact (hall ▸ perm_levels _ levels).map _

theorem root_mem_walkBlocks : root ∈ blocks := by
  rw [(walkBlocks_perm h).mem_iff]
  cases levels - 1 <;> simp [under]

theorem walkBlocks_lt (hroot : root < 2 ^ 32) : ∀ b ∈ blocks, b < 2 ^ 32 := by
  intro b hb
  rw [(walkBlocks_perm h).mem_iff] at hb
  obtain ⟨e, he, rfl⟩ := List.mem_map.mp hb
  exact (under_spec e he).2.elim (fun heq => heq ▸ hroot) id

end

end

end FsXfs.Group
