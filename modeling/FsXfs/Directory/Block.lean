import FsXfs.Names.ShortForm
import FsXfs.Lib.Fields
import FsXfs.Quota

/-!
# Directory blocks

`dir.rs` past the short form: the header a version 5 block describes itself with, the records of a
data block, and the hash index at the tail of a block-form directory.
-/

namespace FsXfs.Directory

open Bytes Quota Names

set_option autoImplicit false

/-! ## Constants -/

abbrev xfsDir2BlockMagic : ℕ := 0x58443242
abbrev xfsDir3BlockMagic : ℕ := 0x58444233
abbrev xfsDir2DataMagic : ℕ := 0x58443244
abbrev xfsDir3DataMagic : ℕ := 0x58444433
abbrev xfsDir3FreeMagic : ℕ := 0x58444633
abbrev xfsDir3Leaf1Magic : ℕ := 0x3df1
abbrev xfsDir3LeafnMagic : ℕ := 0x3dff
abbrev xfsDa3NodeMagic : ℕ := 0x3ebe

abbrev xfsDir2DataFreeTag : ℕ := 0xffff
abbrev xfsDir2DataAlign : ℕ := 8
abbrev xfsDir2DataHdrSize : ℕ := 16
abbrev xfsDir3DataHdrSize : ℕ := 64
abbrev xfsDir2BlockTailSize : ℕ := 8
abbrev xfsDir2LeafEntrySize : ℕ := 8
abbrev dataEntryMinSize : ℕ := 16
abbrev nullDataptr : ℕ := 0

/-! ## The header of a version 5 block -/

structure V5Layout where
  crc : ℕ
  blkno : ℕ
  uuid : ℕ
  owner : ℕ

def dir3BlkHdr : V5Layout :=
  { crc := 4, blkno := 8, uuid := 24, owner := 40 }

def da3BlkHdr : V5Layout :=
  { crc := 12, blkno := 16, uuid := 32, owner := 48 }

section

variable (crc32c : List UInt8 → ℕ) (sb : Superblock)

def dirBlockSize (buf : List UInt8) : Except Error ℕ := do
  ensure (sb.dirblocksize ≤ buf.length)
    (.badSuperblock s!"directory block needs {sb.dirblocksize} bytes, got {buf.length}")
  return sb.dirblocksize

def verifyV5Header (what : String) (layout : V5Layout) (buf : List UInt8) (daddr owner : ℕ) :
    Except Error Unit :=
  if sb.isV5 then do
    let size ← dirBlockSize sb buf
    ensure (leValue (slice buf layout.crc 4) =
        crc32cWithZeroedCrc crc32c (buf.take size) layout.crc)
      (.checksumMismatch what daddr)
    -- another filesystem's block: its address says nothing
    ensure (slice buf layout.uuid 16 = sb.metaUuid)
      (.blockIdentityMismatch what daddr (2 ^ 64 - 1))
    ensure (beAt buf layout.blkno 8 = daddr)
      (.blockIdentityMismatch what daddr (beAt buf layout.blkno 8))
    ensure (beAt buf layout.owner 8 = owner)
      (.blockIdentityMismatch "directory block owner" owner (beAt buf layout.owner 8))
  else .ok ()

def verifyDataBlock (buf : List UInt8) (daddr owner : ℕ) : Except Error Unit :=
  verifyV5Header crc32c sb "directory data block" dir3BlkHdr buf daddr owner

def verifyDaBlock (buf : List UInt8) (daddr owner : ℕ) : Except Error Unit :=
  verifyV5Header crc32c sb "directory index block" da3BlkHdr buf daddr owner

end

/-! ## The records of a data block -/

def alignUp (n : ℕ) : ℕ :=
  (n + (xfsDir2DataAlign - 1)) / xfsDir2DataAlign * xfsDir2DataAlign

def dataEntrySize (namelen : ℕ) (ftype : Bool) : ℕ :=
  alignUp (9 + namelen + ftype.toNat + 2)

section

variable (sb : Superblock) (buf : List UInt8)

def freeRecordAt (cur end_ : ℕ) : Except Error ℕ := do
  let len := beAt buf (cur + 2) 2
  ensure (len ≠ 0 ∧ len % xfsDir2DataAlign = 0)
    (.badSuperblock s!"directory data block: free record at {cur} has length {len}, which is zero or not 8-byte aligned")
  ensure (cur + len ≤ end_)
    (.badSuperblock s!"directory data block: free record at {cur} of length {len} runs past {end_}")
  let tag := beAt buf (cur + len - 2) 2
  ensure (tag = cur)
    (.badSuperblock s!"directory data block: free record at {cur} tags itself as {tag}")
  return cur + len

def entryAt (cur end_ : ℕ) : Except Error (DirEntry × ℕ) := do
  ensure (dataEntryMinSize ≤ end_ - cur)
    (.badSuperblock s!"directory data block: {end_ - cur} bytes left at offset {cur}, too few for an entry")
  let ino := beAt buf cur 8
  let namelen := beAt buf (cur + 8) 1
  ensure (namelen ≠ 0) (.badSuperblock s!"directory data block: entry at {cur} has an empty name")
  let size := dataEntrySize namelen sb.hasFtype
  ensure (cur + size ≤ end_)
    (.badSuperblock s!"directory data block: entry at {cur} of length {size} runs past {end_}")
  let tag := beAt buf (cur + size - 2) 2
  ensure (tag = cur) (.badSuperblock s!"directory data block: entry at {cur} tags itself as {tag}")
  checkEntryIno sb ino s!"directory data block entry at {cur}"
  let ftype ← readType sb.hasFtype buf (cur + 9 + namelen)
  return (⟨slice buf (cur + 9) namelen, ino, ftype, cur⟩, cur + size)

/-- The record at `cur`, if it is an entry, and where the next one starts. -/
def recordAt (cur end_ : ℕ) : Except Error (Option DirEntry × ℕ) := do
  ensure (xfsDir2DataAlign ≤ end_ - cur)
    (.badSuperblock s!"directory data block: {end_ - cur} bytes left at offset {cur}, too few for any record")
  if beAt buf cur 2 = xfsDir2DataFreeTag then
    let next ← freeRecordAt buf cur end_
    return (none, next)
  else
    let (entry, next) ← entryAt sb buf cur end_
    return (some entry, next)

def parseEntriesFrom (end_ : ℕ) : ℕ → ℕ → Except Error (List DirEntry)
  | 0, _ => .ok []
  | fuel + 1, cur =>
    if cur < end_ then do
      let (entry, next) ← recordAt sb buf cur end_
      let rest ← parseEntriesFrom end_ fuel next
      return entry.toList ++ rest
    else .ok []

-- every record takes eight bytes or more, so the walk ends before the fuel does
def parseEntries (start end_ : ℕ) : Except Error (List DirEntry) :=
  parseEntriesFrom sb buf end_ (end_ - start) start

/-! ## The hash index of a block-form directory -/

structure LeafEntry where
  hashval : ℕ
  address : ℕ
  deriving DecidableEq, Repr

def LeafEntry.isStale (r : LeafEntry) : Bool :=
  decide (r.address = nullDataptr)

def leafEntryAt (at_ : ℕ) : LeafEntry :=
  ⟨beAt buf at_ 4, beAt buf (at_ + 4) 4⟩

def checkSorted (what : String) : ℕ → ℕ → List LeafEntry → Except Error Unit
  | _, _, [] => .ok ()
  | i, previous, r :: rest => do
    ensure (previous ≤ r.hashval)
      (.badSuperblock s!"{what}: hash index record {i} has hash {r.hashval}, below its predecessor's {previous}")
    checkSorted what (i + 1) r.hashval rest

def parseLeafEntries (start count stale : ℕ) (what : String) : Except Error (List LeafEntry) := do
  let entries := (List.range count).map fun i => leafEntryAt buf (start + i * xfsDir2LeafEntrySize)
  checkSorted what 0 0 entries
  let foundStale := entries.countP LeafEntry.isStale
  ensure (foundStale = stale)
    (.badSuperblock s!"{what}: header claims {stale} stale index records, but {foundStale} are empty")
  return entries

/-! ## Whole blocks -/

structure BlockDir where
  entries : List DirEntry
  index : List LeafEntry

def versioned (magic size : ℕ) (isV5 : Bool) : Except Error ℕ := do
  ensure (isV5 = sb.isV5)
    (.badSuperblock s!"directory data block magic {magic} is v{if isV5 then 5 else 4} format on a v{sb.versionnum % 16} filesystem")
  return size

def dataHdrSizeOf (magic : ℕ) : Except Error ℕ :=
  if magic = xfsDir3DataMagic ∨ magic = xfsDir3BlockMagic then
    versioned sb magic xfsDir3DataHdrSize true
  else if magic = xfsDir2DataMagic ∨ magic = xfsDir2BlockMagic then
    versioned sb magic xfsDir2DataHdrSize false
  else .error (.badSuperblock s!"directory data block has magic {magic}, expected one of {xfsDir3DataMagic}, {xfsDir3BlockMagic}, {xfsDir2DataMagic} or {xfsDir2BlockMagic}")

def isBlockForm (magic : ℕ) : Bool :=
  decide (magic = xfsDir3BlockMagic) || decide (magic = xfsDir2BlockMagic)

def readDataMagic : Except Error ℕ := do
  let blocksize ← dirBlockSize sb buf
  ensure (xfsDir2DataHdrSize + xfsDir2BlockTailSize ≤ blocksize)
    (.badSuperblock s!"directory block size {blocksize} is smaller than the smallest possible header")
  return beAt buf 0 4

def parseBlockForm : Except Error BlockDir := do
  let magic ← readDataMagic sb buf
  ensure (isBlockForm magic = true)
    (.badSuperblock s!"block-form directory has magic {magic}, expected {xfsDir3BlockMagic} or {xfsDir2BlockMagic}")
  let blocksize ← dirBlockSize sb buf
  let hdrSize ← dataHdrSizeOf sb magic
  ensure (hdrSize + xfsDir2BlockTailSize ≤ blocksize)
    (.badSuperblock s!"directory block size {blocksize} leaves no room for a {hdrSize}-byte header and its tail")
  let tail := blocksize - xfsDir2BlockTailSize
  let count := beAt buf tail 4
  let stale := beAt buf (tail + 4) 4
  let indexBytes := count * xfsDir2LeafEntrySize
  ensure (indexBytes ≤ tail - hdrSize)
    (.badSuperblock s!"block-form directory claims {count} index records ({indexBytes} bytes), which do not fit between the header and the tail")
  ensure (stale ≤ count)
    (.badSuperblock s!"block-form directory claims {stale} stale records out of {count}")
  let index ← parseLeafEntries buf (tail - indexBytes) count stale "block-form directory"
  let entries ← parseEntries sb buf hdrSize (tail - indexBytes)
  return ⟨entries, index⟩

def parseDataBlock : Except Error (List DirEntry) := do
  let magic ← readDataMagic sb buf
  if isBlockForm magic then
    let block ← parseBlockForm sb buf
    return block.entries
  else
    let blocksize ← dirBlockSize sb buf
    let hdrSize ← dataHdrSizeOf sb magic
    parseEntries sb buf hdrSize blocksize

end

/-! ## The walk ends -/

section

variable {sb : Superblock} {buf : List UInt8} {cur end_ next : ℕ}

theorem freeRecordAt_lt (h : freeRecordAt buf cur end_ = .ok next) : cur < next := by
  simp only [freeRecordAt, bind_eq_ok, ensure_eq_ok, exists_and_left, exists_const, pure, Except.pure,
    Except.ok.injEq] at h
  omega

theorem entryAt_lt {entry : DirEntry} (h : entryAt sb buf cur end_ = .ok (entry, next)) :
    cur < next := by
  simp only [entryAt, bind_eq_ok, ensure_eq_ok, exists_and_left, exists_const, pure, Except.pure,
    Except.ok.injEq, Prod.mk.injEq] at h
  have hsize : 0 < dataEntrySize (beAt buf (cur + 8) 1) sb.hasFtype := by
    unfold dataEntrySize alignUp xfsDir2DataAlign
    omega
  omega

theorem recordAt_lt {entry : Option DirEntry} (h : recordAt sb buf cur end_ = .ok (entry, next)) :
    cur < next := by
  obtain ⟨_, -, h⟩ := bind_eq_ok.mp h
  split at h
  · obtain ⟨n, hn, h⟩ := bind_eq_ok.mp h
    cases h
    exact freeRecordAt_lt hn
  · obtain ⟨⟨e, n⟩, hn, h⟩ := bind_eq_ok.mp h
    cases h
    exact entryAt_lt hn

theorem parseEntriesFrom_succ {fuel : ℕ} (h : end_ - cur ≤ fuel) :
    parseEntriesFrom sb buf end_ (fuel + 1) cur = parseEntriesFrom sb buf end_ fuel cur := by
  induction fuel generalizing cur with
  | zero => rw [parseEntriesFrom, parseEntriesFrom, if_neg (by omega)]
  | succ fuel ih =>
    conv_lhs => rw [parseEntriesFrom]
    conv_rhs => rw [parseEntriesFrom]
    split
    · cases hrecord : recordAt sb buf cur end_ with
      | error e => rfl
      | ok r =>
        have hlt := recordAt_lt hrecord
        simp only [bind, Except.bind, @ih r.2 (by omega)]
    · rfl

end

/-! ## A block with no entry -/

section

variable (crc32c : List UInt8 → ℕ) (sb : Superblock) (daddr owner : ℕ)

def emptyHdrSize : ℕ :=
  if sb.isV5 then xfsDir3DataHdrSize else xfsDir2DataHdrSize

def emptyFields : List (ℕ × List UInt8) :=
  (if sb.isV5 then
    [(0, beBytes 4 xfsDir3DataMagic), (8, beBytes 8 daddr), (24, sb.metaUuid), (40, beBytes 8 owner)]
  else [(0, beBytes 4 xfsDir2DataMagic)]) ++
  [(emptyHdrSize sb, beBytes 2 xfsDir2DataFreeTag),
    (emptyHdrSize sb + 2, beBytes 2 (sb.dirblocksize - emptyHdrSize sb)),
    (sb.dirblocksize - 2, beBytes 2 (emptyHdrSize sb))]

def emptyBody : List UInt8 :=
  putAll (List.replicate sb.dirblocksize 0) (emptyFields sb daddr owner)

/-- A data block that holds one free record. -/
def emptyBlock : List UInt8 :=
  if sb.isV5 then
    patch (emptyBody sb daddr owner) 4
      (leBytes 4 (crc32cWithZeroedCrc crc32c (emptyBody sb daddr owner) 4))
  else emptyBody sb daddr owner

end

section

variable {crc32c : List UInt8 → ℕ} {sb : Superblock} {daddr owner : ℕ}

theorem dirblocksize_bounds (hsb : sb.Accepted) :
    512 ≤ sb.dirblocksize ∧ sb.dirblocksize ≤ 65536 ∧ 8 ∣ sb.dirblocksize := by
  have hge : 512 ≤ sb.dirblocksize :=
    hsb.geometry.blocksize_ge.trans (Nat.le_mul_of_pos_right _ (by positivity))
  obtain ⟨hle, hpow⟩ := hsb.directories
  refine ⟨hge, hle, ?_⟩
  rw [hpow] at hge ⊢
  have h3 : 9 ≤ sb.blocklog + sb.dirblklog :=
    (Nat.pow_le_pow_iff_right (by decide)).mp (show 2 ^ 9 ≤ 2 ^ (sb.blocklog + sb.dirblklog) from hge)
  exact pow_dvd_pow 2 (show 3 ≤ sb.blocklog + sb.dirblklog by omega)

theorem emptyHdrSize_cases (sb : Superblock) :
    sb.isV5 = true ∧ emptyHdrSize sb = 64 ∨ sb.isV5 = false ∧ emptyHdrSize sb = 16 := by
  unfold emptyHdrSize
  cases sb.isV5 with
  | true => exact .inl ⟨rfl, rfl⟩
  | false => exact .inr ⟨rfl, rfl⟩

section

variable (hsb : sb.Accepted) (hmeta : sb.metaUuid.length = 16)

include hsb hmeta

theorem emptyFields_within :
    ∀ f ∈ emptyFields sb daddr owner,
      f.1 + f.2.length ≤ (List.replicate sb.dirblocksize (0 : UInt8)).length := by
  have hsize := (dirblocksize_bounds hsb).1
  rw [List.length_replicate]
  rcases emptyHdrSize_cases sb with ⟨hv5, hhdr⟩ | ⟨hv5, hhdr⟩
  all_goals
    simp only [emptyFields, hv5, hhdr, if_true, Bool.false_eq_true, if_false, List.cons_append,
      List.nil_append, List.forall_mem_cons, List.not_mem_nil, IsEmpty.forall_iff, implies_true,
      beBytes_length, hmeta, and_true]
    omega

theorem emptyFields_apart :
    (spans (emptyFields sb daddr owner)).Pairwise Apart := by
  have hsize := (dirblocksize_bounds hsb).1
  rcases emptyHdrSize_cases sb with ⟨hv5, hhdr⟩ | ⟨hv5, hhdr⟩
  all_goals
    simp only [spans, emptyFields, hv5, hhdr, if_true, Bool.false_eq_true, if_false, List.cons_append,
      List.nil_append, List.map_cons, List.map_nil, beBytes_length, hmeta, List.pairwise_cons,
      List.forall_mem_cons, List.not_mem_nil, IsEmpty.forall_iff, implies_true, List.Pairwise.nil,
      and_true, Apart]
    omega

theorem emptyBody_length :
    (emptyBody sb daddr owner).length = sb.dirblocksize := by
  rw [emptyBody, putAll_length (emptyFields_within hsb hmeta), List.length_replicate]

theorem emptyBlock_length :
    (emptyBlock crc32c sb daddr owner).length = sb.dirblocksize := by
  have hlen : (emptyBody sb daddr owner).length = sb.dirblocksize := emptyBody_length hsb hmeta
  have hsize := (dirblocksize_bounds hsb).1
  unfold emptyBlock
  split
  · rw [patch_length (by rw [hlen, leBytes_length]; omega), hlen]
  · exact hlen

theorem slice_emptyBlock {at_ n : ℕ} (h : at_ + n ≤ 4 ∨ 8 ≤ at_) :
    slice (emptyBlock crc32c sb daddr owner) at_ n = slice (emptyBody sb daddr owner) at_ n := by
  have hlen : (emptyBody sb daddr owner).length = sb.dirblocksize := emptyBody_length hsb hmeta
  have hsize := (dirblocksize_bounds hsb).1
  unfold emptyBlock
  split
  · refine slice_patch_of_outside ?_ ?_
    all_goals
      rw [leBytes_length]
      omega
  · rfl

theorem beAt_emptyBlock {at_ n v : ℕ} (hat : at_ + n ≤ 4 ∨ 8 ≤ at_)
    (hmem : (at_, beBytes n v) ∈ emptyFields sb daddr owner) (hv : v < 256 ^ n) :
    beAt (emptyBlock crc32c sb daddr owner) at_ n = v := by
  rw [beAt, slice_emptyBlock hsb hmeta hat]
  exact beValue_putAll (emptyFields_within hsb hmeta) (emptyFields_apart hsb hmeta) hmem hv

theorem emptyBlock_magic :
    beAt (emptyBlock crc32c sb daddr owner) 0 4 =
      if sb.isV5 then xfsDir3DataMagic else xfsDir2DataMagic := by
  cases hv5 : sb.isV5 with
  | true => exact beAt_emptyBlock hsb hmeta (.inl le_rfl) (by simp [emptyFields, hv5]) (by decide)
  | false => exact beAt_emptyBlock hsb hmeta (.inl le_rfl) (by simp [emptyFields, hv5]) (by decide)

theorem recordAt_emptyBlock :
    recordAt sb (emptyBlock crc32c sb daddr owner) (emptyHdrSize sb) sb.dirblocksize =
      .ok (none, sb.dirblocksize) := by
  obtain ⟨hge, hle, hdvd⟩ := dirblocksize_bounds hsb
  have hhdr : emptyHdrSize sb = 64 ∨ emptyHdrSize sb = 16 :=
    (emptyHdrSize_cases sb).imp And.right And.right
  have htag : beAt (emptyBlock crc32c sb daddr owner) (emptyHdrSize sb) 2 = 0xffff :=
    beAt_emptyBlock hsb hmeta (by omega) (by simp [emptyFields]) (by decide)
  have hlen : beAt (emptyBlock crc32c sb daddr owner) (emptyHdrSize sb + 2) 2 =
      sb.dirblocksize - emptyHdrSize sb :=
    beAt_emptyBlock hsb hmeta (by omega) (by simp [emptyFields]) (by norm_num; omega)
  have hsum : emptyHdrSize sb + (sb.dirblocksize - emptyHdrSize sb) = sb.dirblocksize := by omega
  have hback : beAt (emptyBlock crc32c sb daddr owner) (sb.dirblocksize - 2) 2 = emptyHdrSize sb :=
    beAt_emptyBlock hsb hmeta (by omega) (by simp [emptyFields]) (by norm_num; omega)
  have hfree : freeRecordAt (emptyBlock crc32c sb daddr owner) (emptyHdrSize sb) sb.dirblocksize =
      .ok sb.dirblocksize := by
    have halign : sb.dirblocksize - emptyHdrSize sb ≠ 0 ∧
        (sb.dirblocksize - emptyHdrSize sb) % xfsDir2DataAlign = 0 := by
      show _ ∧ _ % 8 = 0
      omega
    simp only [freeRecordAt, hlen, hsum, hback]
    rw [ensure_of halign, ensure_of le_rfl, ensure_of trivial]
    rfl
  unfold recordAt
  rw [ensure_of (show xfsDir2DataAlign ≤ _ by show 8 ≤ _; omega), if_pos htag]
  simp only [hfree, bind, Except.bind]
  rfl

theorem parseDataBlock_emptyBlock :
    parseDataBlock sb (emptyBlock crc32c sb daddr owner) = .ok [] := by
  obtain ⟨hge, -, -⟩ := dirblocksize_bounds hsb
  have hlen : (emptyBlock crc32c sb daddr owner).length = sb.dirblocksize :=
    emptyBlock_length hsb hmeta
  have hsize : dirBlockSize sb (emptyBlock crc32c sb daddr owner) = .ok sb.dirblocksize := by
    rw [dirBlockSize, ensure_of hlen.ge]
    rfl
  have hentries : parseEntries sb (emptyBlock crc32c sb daddr owner) (emptyHdrSize sb)
      sb.dirblocksize = .ok [] := by
    have hlt : emptyHdrSize sb < sb.dirblocksize := by
      rcases emptyHdrSize_cases sb with ⟨-, hhdr⟩ | ⟨-, hhdr⟩
      all_goals omega
    obtain ⟨fuel, hfuel⟩ : ∃ fuel, sb.dirblocksize - emptyHdrSize sb = fuel + 1 :=
      ⟨sb.dirblocksize - emptyHdrSize sb - 1, by omega⟩
    have hdone : parseEntriesFrom sb (emptyBlock crc32c sb daddr owner) sb.dirblocksize fuel
        sb.dirblocksize = .ok [] := by
      cases fuel with
      | zero => rfl
      | succ fuel => rw [parseEntriesFrom, if_neg (lt_irrefl _)]
    rw [parseEntries, hfuel, parseEntriesFrom, if_pos hlt, recordAt_emptyBlock hsb hmeta]
    simp only [bind, Except.bind, hdone]
    rfl
  have hmagic : readDataMagic sb (emptyBlock crc32c sb daddr owner) =
      .ok (if sb.isV5 then xfsDir3DataMagic else xfsDir2DataMagic) := by
    simp only [readDataMagic, hsize, bind, Except.bind]
    rw [ensure_of (show 16 + 8 ≤ sb.dirblocksize by omega), ← emptyBlock_magic hsb hmeta]
    rfl
  unfold parseDataBlock
  simp only [hmagic, hsize, bind, Except.bind]
  rcases emptyHdrSize_cases sb with ⟨hv5, hhdr⟩ | ⟨hv5, hhdr⟩
  · rw [hv5, if_pos rfl, if_neg (by decide)]
    have hver : dataHdrSizeOf sb xfsDir3DataMagic = .ok (emptyHdrSize sb) := by
      rw [dataHdrSizeOf, if_pos (.inl rfl), versioned, ensure_of hv5.symm, hhdr]
      rfl
    simp only [hver, hentries]
  · rw [hv5, if_neg Bool.false_ne_true, if_neg (by decide)]
    have hver : dataHdrSizeOf sb xfsDir2DataMagic = .ok (emptyHdrSize sb) := by
      rw [dataHdrSizeOf, if_neg (by decide), if_pos (.inl rfl), versioned, ensure_of hv5.symm, hhdr]
      rfl
    simp only [hver, hentries]

end

theorem verifyDataBlock_emptyBlock (hcrc32c : ∀ bytes, crc32c bytes < 2 ^ 32) (hsb : sb.Accepted)
    (hmeta : sb.metaUuid.length = 16) (hdaddr : daddr < 2 ^ 64) (howner : owner < 2 ^ 64) :
    verifyDataBlock crc32c sb (emptyBlock crc32c sb daddr owner) daddr owner = .ok () := by
  obtain ⟨hge, -, -⟩ := dirblocksize_bounds hsb
  have hlen : (emptyBlock crc32c sb daddr owner).length = sb.dirblocksize :=
    emptyBlock_length hsb hmeta
  have hbody : (emptyBody sb daddr owner).length = sb.dirblocksize := emptyBody_length hsb hmeta
  unfold verifyDataBlock verifyV5Header
  split
  · next hv5 =>
    have huuid : slice (emptyBlock crc32c sb daddr owner) 24 16 = sb.metaUuid := by
      rw [slice_emptyBlock hsb hmeta (.inr (by decide)), ← hmeta]
      exact slice_putAll_of_mem (emptyFields_within hsb hmeta) (emptyFields_apart hsb hmeta)
        (by simp [emptyFields, hv5])
    have hblkno : beAt (emptyBlock crc32c sb daddr owner) 8 8 = daddr :=
      beAt_emptyBlock hsb hmeta (.inr le_rfl) (by simp [emptyFields, hv5])
        (lt_of_lt_of_eq hdaddr (by decide))
    have howned : beAt (emptyBlock crc32c sb daddr owner) 40 8 = owner :=
      beAt_emptyBlock hsb hmeta (.inr (by decide)) (by simp [emptyFields, hv5])
        (lt_of_lt_of_eq howner (by decide))
    have hcrc : leValue (slice (emptyBlock crc32c sb daddr owner) 4 4) =
        crc32cWithZeroedCrc crc32c (emptyBlock crc32c sb daddr owner) 4 := by
      rw [emptyBlock, if_pos hv5]
      exact leValue_stamp hcrc32c (by omega)
    have hsize : dirBlockSize sb (emptyBlock crc32c sb daddr owner) = .ok sb.dirblocksize := by
      rw [dirBlockSize, ensure_of hlen.ge]
      rfl
    refine bind_eq_ok.mpr ⟨sb.dirblocksize, hsize, ?_⟩
    simp only [bind_eq_ok, ensure_eq_ok, exists_and_left, exists_const]
    rw [List.take_of_length_le hlen.le]
    exact ⟨hcrc, huuid, hblkno, howned⟩
  · rfl

end

end FsXfs.Directory
